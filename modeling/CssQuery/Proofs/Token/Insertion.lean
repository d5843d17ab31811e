import CssQuery.Proofs.Selector.Reader.List
import CssQuery.Proofs.Token.Tiling

namespace CssQuery.Token

open Text (byteSize)

variable {back comment cs front gap lexeme rest rest' spelled value : List Char} {c : Char}
  {k : Kind} {ks : List Kind} {offset : Nat} {t : Token} {tokens : List Token}

-- No token but a run of blanks goes on with one of these behind it.
def Closing (b : Char) : Prop := b = '/' ∨ b = ')'

-- A text that may stand in another one's place behind a token. It begins with the same
-- character or with one that no token goes on with.
structure Follows (rest rest' : List Char) : Prop where
  head : ∀ b ∈ rest'.head?, b ∈ rest.head? ∨ Closing b
  escape : startsEscape rest' = true → startsEscape rest = true

namespace Follows

theorem any_eq_false (h : Follows rest rest') {p : Char → Bool} (hp : ∀ b, Closing b → p b = false)
    (hrest : rest.head?.any p = false) : rest'.head?.any p = false := by
  rw [Option.any_eq_false] at hrest ⊢
  intro b hb
  obtain hsame | hclosing := h.head b hb
  · exact hrest b hsame
  · exact hp b hclosing

theorem head?_ne (h : Follows rest rest') (hc : ¬ Closing c) (hrest : rest.head? ≠ some c) :
    rest'.head? ≠ some c := by
  intro hhead
  obtain hsame | hclosing := h.head c hhead
  · exact hrest hsame
  · exact hc hclosing

theorem startsEscape_eq (h : Follows rest rest') (hrest : startsEscape rest = false) :
    startsEscape rest' = false := by
  refine Bool.eq_false_iff.2 fun hescape => ?_
  rw [h.escape hescape] at hrest
  cases hrest

theorem endsName (h : Follows rest rest') (hrest : EndsName rest) : EndsName rest' := by
  refine ⟨h.any_eq_false ?_ hrest.1, h.startsEscape_eq hrest.2⟩
  rintro _ (rfl | rfl) <;> rfl

theorem startsName_eq (h : Follows rest rest') (hc : c ≠ '\\')
    (hrest : startsName (c :: rest) = false) : startsName (c :: rest') = false := by
  by_cases hdash : c = '-'
  · subst hdash
    rw [startsName_dash, Bool.or_eq_false_iff] at hrest ⊢
    refine ⟨h.any_eq_false ?_ hrest.1, h.startsEscape_eq hrest.2⟩
    rintro _ (rfl | rfl) <;> rfl
  · have hescape : startsEscape (c :: rest') = false := by
      refine Bool.eq_false_iff.2 fun hescape => ?_
      obtain ⟨_, heq, -⟩ := startsEscape_iff.1 hescape
      exact hc (List.cons_eq_cons.1 heq).1
    rw [startsName_cons hdash, Bool.or_eq_false_iff] at hrest ⊢
    exact ⟨hrest.1, hescape⟩

theorem nameSpelling (h : Follows rest rest') (hspelled : NameSpelling rest value spelled) :
    NameSpelling rest' value spelled := by
  refine hspelled.congr fun b hb => (h.head b hb).imp_right ?_
  rintro (rfl | rfl) <;> decide

end Follows

theorem IsDelim.follow (hrest : Follows rest rest') (h : IsDelim c rest) : IsDelim c rest' where
  blank := h.blank
  quote := h.quote
  hash hc := hrest.endsName (h.hash hc)
  digit := h.digit
  name := hrest.startsName_eq h.escape h.name
  escape := h.escape
  punctuation := h.punctuation
  comparison hc := hrest.head?_ne (by simp [Closing]) (h.comparison hc)

-- Only a run of blanks may go on with a comment.
theorem Lexeme.follow (hrest : Follows rest rest') (h : Lexeme k lexeme rest) (hk : k ≠ .blank) :
    Lexeme k lexeme rest' := by
  cases h with
  | blank => exact absurd rfl hk
  | string hquote h => exact .string hquote h
  | hash hne h hend hid =>
      exact .hash hne (hrest.nameSpelling h) (hrest.endsName hend) hid
  | number hd hdigits hstop =>
      refine .number hd hdigits fun b hb => ?_
      obtain hsame | rfl | rfl := hrest.head b hb
      · exact hstop b hsame
      · rfl
      · rfl
  | ident hopens h hend hparen =>
      exact .ident hopens (hrest.nameSpelling h) (hrest.endsName hend)
        (hrest.head?_ne (by simp [Closing]) hparen)
  | function hopens h => exact .function hopens (h.congr fun _ => .inl)
  | punctuation hc => exact .punctuation hc
  | comparison hc => exact .comparison hc
  | delim h => exact .delim (h.follow hrest)

theorem Splits.spells (h : Splits offset cs tokens) : Spells cs (tokens.map Token.kind) := by
  induction h with
  | last hgap => exact spells_comments hgap
  | cons hgap hlexeme hopen _ ih => exact spells_cons hgap hlexeme hopen ih

-- A backslash that is no escape is not read.
theorem Lexeme.startsEscape_eq (h : Lexeme k lexeme rest)
    (hhead : (lexeme ++ rest).head? = some '\\') : startsEscape (lexeme ++ rest) = true := by
  obtain ⟨tail, htail⟩ := List.head?_eq_some_iff.1 hhead
  have hread := picks_kind?_iff.2 ⟨lexeme, rfl, h⟩
  rw [htail] at hread ⊢
  by_contra hescape
  have hfail : kindFrom '\\' tail = .error ⟨.invalidEscape, '\\' :: tail⟩ := by
    have hstarts : startsName ('\\' :: tail) = false := by
      rw [startsName_cons (by decide), Bool.eq_false_iff.2 hescape]
      rfl
    rw [kindFrom, if_neg (by decide), if_neg (by decide), if_neg (by simp), if_neg (by decide),
      if_neg (by simp [hstarts]), if_pos rfl]
  rw [picks_kind?_cons, hfail] at hread
  exact yields_error _ hread

theorem Splits.startsEscape_eq (h : Splits offset cs tokens) (hhead : cs.head? = some '\\') :
    startsEscape cs = true := by
  cases h with
  | last hgap =>
      rw [← List.append_nil cs] at hhead
      obtain rfl := hgap.head? hhead (by decide)
      cases hhead
  | cons hgap hlexeme =>
      obtain rfl := hgap.head? hhead (by decide)
      exact hlexeme.startsEscape_eq hhead

theorem Splits.le_start (h : Splits offset cs tokens) : ∀ t ∈ tokens, offset ≤ t.start := by
  induction h with
  | last => exact List.forall_mem_nil _
  | @cons offset gap lexeme _ _ _ _ _ _ _ ih =>
      refine List.forall_mem_cons.2 ⟨Nat.le_add_right _ _, fun t ht => ?_⟩
      have hle := ih t ht
      omega

theorem Splits.spells_comment (hcomment : IsComment comment) (h : Splits offset cs tokens) :
    Spells (comment ++ cs) (tokens.map Token.kind) := by
  cases h with
  | last hgap => exact spells_comments (hcomment.comments.append hgap)
  | cons hgap hlexeme hopen hmore =>
      rw [← List.append_assoc]
      exact spells_cons (hcomment.comments.append hgap) hlexeme hopen hmore.spells

section Insertion

variable (hcomment : IsComment comment)
include hcomment

theorem follows_insert (h : Splits offset (front ++ back) tokens) :
    Follows (front ++ back) (front ++ (comment ++ back)) := by
  cases front with
  | nil =>
      have hhead := hcomment.head? back
      refine ⟨fun b hb => .inr (.inl (Option.some.inj (hb.symm.trans hhead))), fun hescape => ?_⟩
      obtain ⟨tail, htail, -⟩ := startsEscape_iff.1 hescape
      rw [List.nil_append] at htail
      rw [htail] at hhead
      cases hhead
  | cons c front =>
      refine ⟨fun b hb => .inl hb, fun hescape => h.startsEscape_eq ?_⟩
      obtain ⟨tail, htail, -⟩ := startsEscape_iff.1 hescape
      obtain ⟨rfl, -⟩ := List.cons_eq_cons.1 htail
      rfl

theorem not_opens_insert (hne : front ≠ []) (h : ∀ body, front ++ back ≠ '/' :: '*' :: body) :
    ∀ body, front ++ (comment ++ back) ≠ '/' :: '*' :: body := by
  intro body heq
  obtain ⟨c, front, rfl⟩ := List.exists_cons_of_ne_nil hne
  obtain ⟨rfl, htail⟩ := List.cons_eq_cons.1 heq
  cases front with
  | nil =>
      have hhead := hcomment.head? back
      replace htail : comment ++ back = '*' :: body := htail
      rw [htail] at hhead
      cases hhead
  | cons d front =>
      obtain ⟨rfl, -⟩ := List.cons_eq_cons.1 htail
      exact h _ rfl

theorem endsBlank_insert (hne : front ≠ []) (h : EndsBlank (front ++ back)) :
    EndsBlank (front ++ (comment ++ back)) := by
  refine ⟨?_, not_opens_insert hcomment hne h.comment⟩
  obtain ⟨c, front, rfl⟩ := List.exists_cons_of_ne_nil hne
  exact h.blank

-- A comment behind a token, and possibly behind some text that follows it.
theorem Splits.spells_behind (hgap : Comments gap) (hlexeme : Lexeme k lexeme (front ++ back))
    (hopen : ∀ body, lexeme ++ (front ++ back) ≠ '/' :: '*' :: body)
    (hmore : Splits offset (front ++ back) tokens)
    (hrest : Spells (front ++ (comment ++ back)) (tokens.map Token.kind)) :
    Spells (gap ++ (lexeme ++ (front ++ (comment ++ back)))) (k :: tokens.map Token.kind) := by
  have hopen' : ∀ body, lexeme ++ (front ++ (comment ++ back)) ≠ '/' :: '*' :: body := by
    rw [← List.append_assoc] at hopen ⊢
    exact not_opens_insert hcomment (List.append_ne_nil_of_left_ne_nil hlexeme.ne_nil _) hopen
  by_cases hk : k = .blank
  · subst hk
    obtain ⟨b, run, rfl, hb, hrun, hends⟩ := hlexeme.exists_blankRun rfl
    cases front with
    | nil =>
        have hlonger : Lexeme .blank (b :: (run ++ comment)) back :=
          .blank hb (hrun.append hcomment.blankRun) hends
        have hspells := spells_cons hgap hlonger (not_opens_of_isBlank hb) hmore.spells
        simpa only [List.cons_append, List.nil_append, List.append_assoc] using hspells
    | cons c front =>
        have hends' := endsBlank_insert hcomment (List.cons_ne_nil _ _) hends
        exact spells_cons hgap (.blank hb hrun hends') hopen' hrest
  · exact spells_cons hgap (hlexeme.follow (follows_insert hcomment hmore) hk) hopen' hrest

-- Where one of the tokens begins or ends, a comment makes no difference.
theorem Splits.spells_insert (h : Splits offset cs tokens) (hcs : cs = front ++ back)
    (ht : t ∈ tokens ++ [finish (offset + byteSize cs)])
    (hp : offset + byteSize front = t.start ∨ offset + byteSize front = t.stop) :
    Spells (front ++ (comment ++ back)) (tokens.map Token.kind) := by
  induction h generalizing front with
  | @last offset gap hgap =>
      obtain rfl := List.mem_singleton.1 ht
      have hsize : byteSize gap = byteSize front := by
        change _ = offset + byteSize gap ∨ _ = offset + byteSize gap + 0 at hp
        omega
      obtain ⟨rfl, rfl⟩ := Text.append_inj_of_byteSize ((List.append_nil gap).trans hcs) hsize
      rw [List.append_nil]
      exact spells_comments (hgap.append hcomment.comments)
  | @cons offset gap lexeme rest k more hgap hlexeme hopen hmore ih =>
      have hcut : (gap ++ lexeme) ++ rest = front ++ back := by rw [List.append_assoc, hcs]
      have hbehind : byteSize (gap ++ lexeme) = byteSize gap + byteSize lexeme :=
        Text.byteSize_append _ _
      rcases List.mem_cons.1 ht with rfl | ht
      · rcases hp with hp | hp
        · obtain ⟨rfl, rfl⟩ := Text.append_inj_of_byteSize hcs (Nat.add_left_cancel hp).symm
          rw [← List.append_assoc]
          exact spells_cons (hgap.append hcomment.comments) hlexeme hopen hmore.spells
        · have hsize : byteSize (gap ++ lexeme) = byteSize front := by
            change _ = offset + byteSize gap + byteSize lexeme at hp
            omega
          obtain ⟨rfl, rfl⟩ := Text.append_inj_of_byteSize hcut hsize
          have hrest := hmore.spells_comment hcomment
          have hspells : Spells (gap ++ (lexeme ++ ([] ++ (comment ++ rest)))) _ :=
            hmore.spells_behind hcomment hgap hlexeme hopen hrest
          rwa [List.append_assoc]
      · have hend : offset + byteSize (gap ++ (lexeme ++ rest)) =
            offset + byteSize gap + byteSize lexeme + byteSize rest := by
          simp only [Text.byteSize_append, Nat.add_assoc]
        rw [hend] at ht
        have hstart : offset + byteSize gap + byteSize lexeme ≤ t.start := by
          rcases List.mem_append.1 ht with ht | ht
          · exact hmore.le_start t ht
          · obtain rfl := List.mem_singleton.1 ht
            exact Nat.le_add_right _ _
        have hstop : t.start ≤ t.stop := Nat.le_add_right _ _
        have hle : byteSize (gap ++ lexeme) ≤ byteSize front := by omega
        obtain ⟨more', rfl, rfl⟩ := Text.exists_append_of_byteSize hcut hle
        have hp' : offset + byteSize gap + byteSize lexeme + byteSize more' = t.start ∨
            offset + byteSize gap + byteSize lexeme + byteSize more' = t.stop := by
          rw [Text.byteSize_append] at hp
          omega
        rw [List.append_assoc, List.append_assoc]
        exact hmore.spells_behind hcomment hgap hlexeme hopen (ih rfl ht hp')

end Insertion

theorem isComment_of_body {body : List Char} (h : ¬ ['*', '/'] <:+: body) :
    IsComment ('/' :: '*' :: (body ++ ['*', '/'])) := by
  refine ⟨body, rfl, fun hinfix => ?_⟩
  rcases List.infix_concat_iff.1 hinfix with hsuffix | hinfix
  · obtain ⟨front, hfront⟩ := hsuffix
    have hlast := congrArg List.getLast? hfront
    simp at hlast
  · exact h hinfix

theorem tokenize_eq_ok_iff {text : String} : tokenize text = .ok tokens ↔
    ∃ found, scan text = .ok found ∧ tokens = found ++ [finish (byteSize text.toList)] := by
  unfold tokenize
  cases scan text with
  | error _ => simp [bind, Except.bind]
  | ok found => simp [bind, Except.bind, pure, Except.pure, eq_comm]

def withComment (front body back : List Char) : String :=
  .ofList (front ++ ('/' :: '*' :: (body ++ ['*', '/']) ++ back))

-- A comment may be put where any token begins or ends. The text keeps its tokens then, and
-- what it is read as.
theorem tokenize_withComment {text : String} {p : Nat} {body : List Char}
    (h : tokenize text = .ok tokens) (ht : t ∈ tokens) (hp : p = t.start ∨ p = t.stop)
    (hbody : ¬ ['*', '/'] <:+: body) :
    ∃ front back, text.toList = front ++ back ∧ byteSize front = p ∧
      (∃ more, tokenize (withComment front body back) = .ok more ∧
        more.map Token.kind = tokens.map Token.kind) ∧
      ∀ limit list, SelectorList.ofText (withComment front body back) limit = .ok list ↔
        SelectorList.ofText text limit = .ok list := by
  obtain ⟨found, hscan, rfl⟩ := tokenize_eq_ok_iff.1 h
  have hcut := (scan_laid hscan).cut (by rwa [← Text.byteSize_toList])
  have hboundary : Text.IsBoundary text p := by
    rcases hp with rfl | rfl
    · exact hcut.start_boundary
    · exact hcut.stop_boundary
  obtain ⟨front, back, htext, hsize⟩ := Text.isBoundary_iff.1 hboundary
  have hsplits := scanFrom_eq_ok_iff.1 (scan_eq_ok_iff.1 hscan)
  obtain ⟨more, hmore, hkinds⟩ : ∃ more, scan (withComment front body back) = .ok more ∧
      more.map Token.kind = found.map Token.kind := by
    have hspells := hsplits.spells_insert (isComment_of_body hbody) htext (by rwa [Nat.zero_add])
      (by rwa [Nat.zero_add, hsize])
    obtain ⟨more, hmore, hkinds⟩ := hspells 0
    exact ⟨more, scan_eq_ok_iff.2 (by rwa [withComment, String.toList_ofList]), hkinds⟩
  refine ⟨front, back, htext, hsize, ⟨_, tokenize_eq_ok_iff.2 ⟨more, hmore, rfl⟩, ?_⟩, ?_⟩
  · rw [List.map_append, List.map_append, hkinds]
    rfl
  · intro limit list
    rw [SelectorList.ofText_eq_ok hmore, SelectorList.ofText_eq_ok hscan, hkinds]

def spaced : List Token :=
  [⟨.ident "a", 0, ['a']⟩, ⟨.blank, 1, [' ']⟩, ⟨.delim '>', 2, ['>']⟩, ⟨.ident "é", 3, ['é']⟩,
    finish 5]

theorem tokenize_withComment_spaced : tokenize "a >é" = .ok spaced ∧
    ∃ front back, "a >é".toList = front ++ back ∧ byteSize front = 2 ∧
      (∃ more, tokenize (withComment front ['/', '*', '\n'] back) = .ok more ∧
        more.map Token.kind = spaced.map Token.kind) ∧
      ∀ limit list, SelectorList.ofText (withComment front ['/', '*', '\n'] back) limit = .ok list ↔
        SelectorList.ofText "a >é" limit = .ok list := by
  have h : tokenize "a >é" = .ok spaced := by with_unfolding_all rfl
  have hblank : (⟨.blank, 1, [' ']⟩ : Token) ∈ spaced := by simp [spaced]
  exact ⟨h, tokenize_withComment h hblank (.inr rfl) (by decide)⟩

end CssQuery.Token
