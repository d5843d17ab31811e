import CssQuery.Proofs.Text.Bytes
import CssQuery.Proofs.Token.Lexemes
import Mathlib.Data.List.Chain

namespace CssQuery.Token

open Text (byteSize IsBoundary slice)

variable {cs front : List Char} {offset : Nat} {text : String} {tokens : List Token}

-- The text between two offsets.
structure Cut (text : String) (start stop : Nat) (cs : List Char) : Prop where
  le : start ≤ stop
  start_boundary : IsBoundary text start
  stop_boundary : IsBoundary text stop
  slice_eq : slice text start stop = cs

theorem cut_of_append {text : String} {front middle back : List Char}
    (h : text.toList = front ++ (middle ++ back)) :
    Cut text (byteSize front) (byteSize front + byteSize middle) middle := by
  have hstop : text.toList = (front ++ middle) ++ back := by rw [h, List.append_assoc]
  refine ⟨Nat.le_add_right _ _, Text.isBoundary_of_append h, ?_, Text.slice_of_append hstop⟩
  rw [← Text.byteSize_append]
  exact Text.isBoundary_of_append hstop

-- The tokens from an offset on. Comments stand before, between and behind them, and
-- nothing else.
inductive Laid (text : String) : Nat → List Token → Prop
  | last {offset : Nat} {gap : List Char} (hgap : Comments gap)
      (hcut : Cut text offset text.utf8ByteSize gap) : Laid text offset [finish text.utf8ByteSize]
  | cons {offset : Nat} {gap : List Char} {t : Token} {more : List Token} (hgap : Comments gap)
      (hcut : Cut text offset t.start gap) (htoken : Cut text t.start t.stop t.lexeme)
      (hlexeme : t.lexeme ≠ []) (hnamed : t.kind.Named)
      (hblank : t.kind = .blank → ∀ u ∈ more.head?, u.kind ≠ .blank)
      (hmore : Laid text t.stop more) : Laid text offset (t :: more)

-- A scan that begins where a run of blanks ended does not find another one.
theorem Splits.head_ne_blank (h : Splits offset cs tokens) (hends : EndsBlank cs) :
    ∀ t ∈ tokens.head?, t.kind ≠ .blank := by
  cases h with
  | last => nofun
  | cons hgap hlexeme =>
      rintro _ ⟨⟩ hkind
      obtain ⟨b, run, rfl, hb, -, -⟩ := hlexeme.exists_blankRun hkind
      cases hgap with
      | nil =>
          have hfirst : Text.isBlank b = false := hends.blank
          rw [hb] at hfirst
          cases hfirst
      | cons hcomment =>
          obtain ⟨body, rfl, -⟩ := hcomment
          exact hends.comment _ rfl

theorem Splits.laid (h : Splits offset cs tokens) (htext : text.toList = front ++ cs)
    (hoffset : byteSize front = offset) :
    Laid text offset (tokens ++ [finish text.utf8ByteSize]) := by
  induction h generalizing front with
  | @last offset gap hgap =>
      subst hoffset
      have hcut := cut_of_append (htext.trans (congrArg (front ++ ·) (List.append_nil gap).symm))
      have hsize : byteSize front + byteSize gap = text.utf8ByteSize := by
        rw [← Text.byteSize_toList, htext, Text.byteSize_append]
      rw [hsize] at hcut
      exact .last hgap hcut
  | @cons offset gap lexeme rest k more hgap hlexeme hopen hmore ih =>
      subst hoffset
      have hgapcut := cut_of_append htext
      have hsplit : text.toList = (front ++ gap) ++ (lexeme ++ rest) := by
        rw [htext, List.append_assoc]
      have hcut := cut_of_append hsplit
      have hbehind : text.toList = (front ++ gap ++ lexeme) ++ rest := by
        rw [hsplit, List.append_assoc (front ++ gap)]
      have hlaid := ih hbehind (by simp only [Text.byteSize_append])
      rw [Text.byteSize_append] at hcut
      refine .cons hgap hgapcut hcut hlexeme.ne_nil hlexeme.named ?_ hlaid
      intro hkind t ht
      obtain ⟨-, -, -, -, -, hends⟩ := hlexeme.exists_blankRun hkind
      cases more with
      | nil =>
          obtain rfl := Option.some.inj ht
          exact Kind.noConfusion
      | cons u more => exact hmore.head_ne_blank hends t ht

namespace Laid

variable {text : String} {t : Token}

theorem cut (h : Laid text offset tokens) (ht : t ∈ tokens) :
    Cut text t.start t.stop t.lexeme := by
  induction h with
  | last hgap hcut =>
      obtain rfl := List.mem_singleton.1 ht
      have hend : text.toList = text.toList ++ ([] ++ []) := by simp
      have hcut := cut_of_append hend
      rwa [Text.byteSize_toList] at hcut
  | cons _ _ htoken _ _ _ _ ih =>
      rcases List.mem_cons.1 ht with rfl | ht
      · exact htoken
      · exact ih ht

theorem head (h : Laid text offset tokens) (ht : t ∈ tokens.head?) :
    ∃ gap, Comments gap ∧ Cut text offset t.start gap := by
  cases h with
  | last hgap hcut =>
      obtain rfl := Option.some.inj ht
      exact ⟨_, hgap, hcut⟩
  | cons hgap hcut =>
      obtain rfl := Option.some.inj ht
      exact ⟨_, hgap, hcut⟩

theorem le_start (h : Laid text offset tokens) : ∀ t ∈ tokens, offset ≤ t.start := by
  induction h with
  | last hgap hcut =>
      intro t ht
      obtain rfl := List.mem_singleton.1 ht
      exact hcut.le
  | cons hgap hcut htoken _ _ _ _ ih =>
      intro t ht
      rcases List.mem_cons.1 ht with rfl | ht
      · exact hcut.le
      · exact (hcut.le.trans htoken.le).trans (ih t ht)

theorem pairwise (h : Laid text offset tokens) :
    tokens.Pairwise fun a b => a.stop ≤ b.start := by
  induction h with
  | last => exact List.pairwise_singleton _ _
  | cons _ _ _ _ _ _ hmore ih => exact List.pairwise_cons.2 ⟨hmore.le_start, ih⟩

theorem gaps (h : Laid text offset tokens) :
    tokens.IsChain fun a b => ∃ gap, Comments gap ∧ Cut text a.stop b.start gap := by
  induction h with
  | last => exact .singleton _
  | cons _ _ _ _ _ _ hmore ih => exact List.isChain_cons.2 ⟨fun t ht => hmore.head ht, ih⟩

theorem blanks (h : Laid text offset tokens) :
    tokens.IsChain fun a b => a.kind = .blank → b.kind ≠ .blank := by
  induction h with
  | last => exact .singleton _
  | cons _ _ _ _ _ hblank _ ih =>
      exact List.isChain_cons.2 ⟨fun t ht hkind => hblank hkind t ht, ih⟩

theorem closed (h : Laid text offset tokens) :
    ∃ body, tokens = body ++ [finish text.utf8ByteSize] ∧
      ∀ t ∈ body, t.kind.Named ∧ t.lexeme ≠ [] := by
  induction h with
  | last => exact ⟨[], rfl, by simp⟩
  | @cons _ _ t _ _ _ _ hlexeme hnamed _ _ ih =>
      obtain ⟨body, rfl, hbody⟩ := ih
      exact ⟨t :: body, rfl, List.forall_mem_cons.2 ⟨⟨hnamed, hlexeme⟩, hbody⟩⟩

end Laid

-- The tokens of a text lie in it one behind the other, and what lies between them is
-- made of comments.
structure Tiling (text : String) (tokens : List Token) : Prop where
  ordered : tokens.Pairwise fun a b => a.stop ≤ b.start
  boundaries : ∀ t ∈ tokens, IsBoundary text t.start ∧ IsBoundary text t.stop
  lexemes : ∀ t ∈ tokens, slice text t.start t.stop = t.lexeme
  closed : ∃ body, tokens = body ++ [finish text.utf8ByteSize] ∧
    ∀ t ∈ body, t.kind ≠ .finish ∧ t.lexeme ≠ [] ∧ t.start < t.stop
  opening : ∀ t ∈ tokens.head?, Comments (slice text 0 t.start)
  gaps : tokens.IsChain fun a b => Comments (slice text a.stop b.start)
  blanks : tokens.IsChain fun a b => ¬ (a.kind = .blank ∧ b.kind = .blank)

theorem Laid.tiling {text : String} (h : Laid text 0 tokens) : Tiling text tokens where
  ordered := h.pairwise
  boundaries _ ht := ⟨(h.cut ht).start_boundary, (h.cut ht).stop_boundary⟩
  lexemes _ ht := (h.cut ht).slice_eq
  closed := by
    obtain ⟨body, hbody, hall⟩ := h.closed
    refine ⟨body, hbody, fun t ht => ?_⟩
    obtain ⟨hnamed, hlexeme⟩ := hall t ht
    refine ⟨?_, hlexeme, Nat.lt_add_of_pos_right (Text.byteSize_pos hlexeme)⟩
    intro hkind
    rw [hkind] at hnamed
    exact hnamed
  opening _ ht := by
    obtain ⟨gap, hgap, hcut⟩ := h.head ht
    exact hcut.slice_eq ▸ hgap
  gaps := by
    refine h.gaps.imp fun a b hab => ?_
    obtain ⟨gap, hgap, hcut⟩ := hab
    exact hcut.slice_eq ▸ hgap
  blanks := h.blanks.imp fun a b hab hboth => hab hboth.1 hboth.2

theorem scan_laid {text : String} (h : scan text = .ok tokens) :
    Laid text 0 (tokens ++ [finish text.utf8ByteSize]) := by
  have hwhole : text.toList = [] ++ text.toList := rfl
  exact (scanFrom_eq_ok_iff.1 (scan_eq_ok_iff.1 h)).laid hwhole rfl

theorem tokenize_tiling {text : String} (h : tokenize text = .ok tokens) : Tiling text tokens := by
  unfold tokenize at h
  cases hscan : scan text with
  | error _ => simp [hscan, bind, Except.bind] at h
  | ok found =>
      simp only [hscan, bind, Except.bind, pure, Except.pure, Except.ok.injEq] at h
      subst h
      have hlaid := scan_laid hscan
      rw [Text.byteSize_toList]
      exact hlaid.tiling

def commented : List Token :=
  [⟨.ident "é", 4, ['é']⟩, ⟨.blank, 12, " /**/".toList⟩, ⟨.delim '>', 17, ['>']⟩, finish 22]

theorem tokenize_tiling_commented :
    tokenize "/**/é/*ü*/ /**/>/**/" = .ok commented ∧ Tiling "/**/é/*ü*/ /**/>/**/" commented := by
  have h : tokenize "/**/é/*ü*/ /**/>/**/" = .ok commented := by with_unfolding_all rfl
  exact ⟨h, tokenize_tiling h⟩

end CssQuery.Token
