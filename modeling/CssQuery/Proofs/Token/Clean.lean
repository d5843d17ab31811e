import CssQuery.Proofs.Text.Blanks
import CssQuery.Proofs.Token.Insertion

namespace CssQuery.Token

open Text (byteSize)

variable {c : Char} {cs gap lexeme part rest run spelled value : List Char} {k : Kind}
  {offset : Nat} {t : Token} {tokens : List Token}

-- A text without the marks that a scan can fail at, and so without strings, escapes and
-- comments.
structure Clean (cs : List Char) : Prop where
  marks : ∀ c ∈ cs, c ≠ '"' ∧ c ≠ '\'' ∧ c ≠ '\\'
  comment : ¬ ['/', '*'] <:+: cs

theorem Clean.mono (h : Clean cs) (hpart : part <:+: cs) : Clean part :=
  ⟨fun c hc => h.marks c (hpart.subset hc), fun hopen => h.comment (hopen.trans hpart)⟩

theorem Clean.left (h : Clean (part ++ rest)) : Clean part :=
  h.mono (List.prefix_append part rest).isInfix

theorem Clean.right (h : Clean (part ++ rest)) : Clean rest :=
  h.mono (List.suffix_append part rest).isInfix

theorem Clean.tail (h : Clean (c :: rest)) : Clean rest := h.mono (List.suffix_cons c rest).isInfix

theorem Clean.not_opens (h : Clean cs) : ∀ body, cs ≠ '/' :: '*' :: body := by
  rintro body rfl
  exact h.comment ⟨[], body, rfl⟩

theorem Clean.startsEscape_eq (h : Clean cs) : startsEscape cs = false := by
  refine Bool.eq_false_iff.2 fun hescape => ?_
  obtain ⟨rest, rfl, -⟩ := startsEscape_iff.1 hescape
  exact (h.marks '\\' (.head _)).2.2 rfl

theorem Clean.skipBlanks_ok (h : Clean cs) : ∃ read, skipBlanks cs = .ok read := by
  induction cs with
  | nil => exact ⟨_, by rw [skipBlanks]⟩
  | cons c cs ih =>
      rw [skipBlanks_cons h.not_opens]
      split
      · obtain ⟨read, hread⟩ := ih h.tail
        exact ⟨_, by rw [hread]; rfl⟩
      · exact ⟨_, rfl⟩

theorem Clean.name_ok (h : Clean cs) : ∃ read, name cs = .ok read := by
  induction cs with
  | nil => exact ⟨_, by rw [name]⟩
  | cons c cs ih =>
      obtain ⟨read, hread⟩ := ih h.tail
      rw [name]
      split
      · rw [hread]
        exact ⟨_, rfl⟩
      · rw [if_neg (by simp [h.startsEscape_eq])]
        exact ⟨_, rfl⟩

theorem Clean.nameFrom_ok (h : Clean (c :: rest)) (hc : startsName (c :: rest) = true) :
    ∃ read, nameFrom c rest = .ok read := by
  obtain hname | ⟨rfl, -⟩ := isNameChar_or_of_startsName hc
  · obtain ⟨read, hread⟩ := h.tail.name_ok
    rw [nameFrom, if_pos hname, hread]
    exact ⟨_, rfl⟩
  · exact absurd rfl (h.marks '\\' (.head _)).2.2

theorem Clean.kindFrom_ok (h : Clean (c :: rest)) : ∃ read, kindFrom c rest = .ok read := by
  obtain ⟨hdouble, hsingle, hescape⟩ := h.marks c (.head _)
  obtain ⟨blanks, hblanks⟩ := h.tail.skipBlanks_ok
  obtain ⟨more, hmore⟩ := h.tail.name_ok
  unfold kindFrom
  split
  · rw [hblanks]
    exact ⟨_, rfl⟩
  rw [if_neg (by simp [hdouble, hsingle])]
  split
  · rw [hmore]
    exact ⟨_, rfl⟩
  split
  · exact ⟨_, rfl⟩
  split
  · next hstarts =>
      obtain ⟨read, hread⟩ := h.nameFrom_ok hstarts
      rw [hread]
      exact ⟨_, rfl⟩
  exact ⟨_, rfl⟩

-- Such a text is always split into tokens.
theorem Clean.exists_splits (h : Clean cs) (offset : Nat) : ∃ tokens, Splits offset cs tokens := by
  induction hn : cs.length using Nat.strong_induction_on generalizing offset cs with
  | _ n ih =>
      cases cs with
      | nil => exact ⟨[], .last .nil⟩
      | cons c cs =>
          obtain ⟨read, hread⟩ := h.kindFrom_ok
          have hpicks : Picks (kind? (c :: cs)) read.value read.rest :=
            picks_kind?_cons.2 (hread ▸ yields_ok.2 ⟨rfl, rfl⟩)
          obtain ⟨lexeme, hcs, hlexeme⟩ := picks_kind?_iff.1 hpicks
          rw [hcs] at h ⊢
          have hlt : read.rest.length < n := hn ▸ read.within
          obtain ⟨more, hmore⟩ := ih _ hlt h.right _ rfl
          exact ⟨_, .cons .nil hlexeme h.not_opens hmore⟩

theorem Comments.eq_nil (h : Comments gap) (hopen : ∀ body, gap ++ rest ≠ '/' :: '*' :: body) :
    gap = [] := by
  cases h with
  | nil => rfl
  | cons hcomment =>
      obtain ⟨body, rfl, -⟩ := hcomment
      exact absurd rfl (hopen _)

theorem Splits.head_start (h : Splits offset cs tokens) (hopen : ∀ body, cs ≠ '/' :: '*' :: body) :
    ∀ t ∈ tokens.head?, t.start = offset := by
  cases h with
  | last => nofun
  | cons hgap =>
      rintro _ ⟨⟩
      rw [hgap.eq_nil hopen]
      rfl

theorem BlankRun.blank_of_clean (h : BlankRun run) (hclean : Clean run) : Text.Blank run := by
  induction h with
  | nil => exact List.forall_mem_nil _
  | blank hb _ ih => exact List.forall_mem_cons.2 ⟨hb, ih hclean.tail⟩
  | comment hcomment =>
      obtain ⟨body, rfl, -⟩ := hcomment
      exact absurd rfl (hclean.not_opens _)

theorem NameSpelling.eq_of_clean (h : NameSpelling rest value spelled) (hclean : Clean spelled) :
    value = spelled ∧ ∀ c ∈ spelled, isNameChar c = true := by
  induction h with
  | nil => exact ⟨rfl, List.forall_mem_nil _⟩
  | raw hc _ ih =>
      obtain ⟨rfl, hall⟩ := ih hclean.tail
      exact ⟨rfl, List.forall_mem_cons.2 ⟨hc, hall⟩⟩
  | escape => exact absurd rfl (hclean.marks '\\' (.head _)).2.2

theorem follows_close (h : Clean rest) : Follows rest (rest ++ [')']) := by
  cases rest with
  | nil => exact ⟨by rintro _ ⟨⟩; exact .inr (.inr rfl), nofun⟩
  | cons c rest =>
      refine ⟨fun b hb => .inl hb, fun hescape => ?_⟩
      obtain ⟨_, heq, -⟩ := startsEscape_iff.1 hescape
      obtain ⟨rfl, -⟩ := List.cons_eq_cons.1 heq
      exact absurd rfl (h.marks '\\' (.head _)).2.2

theorem Clean.not_opens_close (h : Clean cs) : ∀ body, cs ++ [')'] ≠ '/' :: '*' :: body := by
  intro body heq
  cases cs with
  | nil => cases heq
  | cons c cs =>
      obtain ⟨rfl, htail⟩ := List.cons_eq_cons.1 heq
      cases cs with
      | nil => cases htail
      | cons d cs =>
          obtain ⟨rfl, -⟩ := List.cons_eq_cons.1 htail
          exact h.not_opens _ rfl

theorem Lexeme.close (h : Lexeme k lexeme rest) (hrest : Clean rest) :
    Lexeme k lexeme (rest ++ [')']) := by
  by_cases hk : k = .blank
  · subst hk
    obtain ⟨b, run, rfl, hb, hrun, hends⟩ := h.exists_blankRun rfl
    refine .blank hb hrun ⟨?_, hrest.not_opens_close⟩
    cases rest with
    | nil => rfl
    | cons c rest => exact hends.blank
  · exact h.follow (follows_close hrest) hk

-- A closing parenthesis behind the text is one more token.
theorem Splits.close (h : Splits offset cs tokens) (hclean : Clean cs) :
    Splits offset (cs ++ [')']) (tokens ++ [⟨.closeParen, offset + byteSize cs, [')']⟩]) := by
  induction h with
  | @last offset gap hgap =>
      obtain rfl := hgap.eq_nil ((List.append_nil gap).symm ▸ hclean.not_opens)
      exact .cons .nil (.punctuation rfl) nofun (.last .nil)
  | @cons offset gap lexeme rest k more hgap hlexeme hopen hmore ih =>
      obtain rfl := hgap.eq_nil hclean.not_opens
      have hrest : Clean rest := hclean.right.right
      have hend : offset + byteSize (lexeme ++ rest) =
          offset + byteSize [] + byteSize lexeme + byteSize rest := by
        rw [Text.byteSize_append, Text.byteSize_nil]
        omega
      have hopen' : ∀ body, lexeme ++ (rest ++ [')']) ≠ '/' :: '*' :: body := by
        rw [← List.append_assoc]
        exact hclean.not_opens_close
      have hsplits := Splits.cons hgap (hlexeme.close hrest) hopen' (ih hrest)
      rw [List.nil_append, List.append_assoc, hend]
      exact hsplits

end CssQuery.Token
