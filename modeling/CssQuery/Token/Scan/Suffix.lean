import CssQuery.Token.Scan
namespace CssQuery.Token

-- Whatever a scanner reads, the text it leaves is a suffix of the text it was given.

theorem commentEnd?_suffix {cs : List Char} {read : Reading Char Unit cs.length}
    (h : commentEnd? cs = some read) : read.rest <:+ cs := by
  fun_induction commentEnd? cs with
  | case1 => cases h
  | case2 rest =>
      cases h
      exact (List.suffix_cons _ _).trans (List.suffix_cons _ _)
  | case3 c rest _ ih =>
      obtain ⟨more, hm, rfl⟩ := Option.map_eq_some_iff.1 h
      exact (ih hm).trans (List.suffix_cons _ _)

theorem skipComments_suffix {cs : List Char} {read : Reading Char Unit (cs.length + 1)}
    (h : skipComments cs = .ok read) : read.rest <:+ cs := by
  fun_induction skipComments cs with
  | case1 => cases h
  | case2 => cases h
  | case3 body comment hc more hm ih =>
      cases h
      exact (((ih hm).trans (commentEnd?_suffix hc)).trans (List.suffix_cons _ _)).trans
        (List.suffix_cons _ _)
  | case4 => cases h; exact List.suffix_refl _

theorem skipBlanks_suffix {cs : List Char} {read : Reading Char Unit (cs.length + 1)}
    (h : skipBlanks cs = .ok read) : read.rest <:+ cs := by
  fun_induction skipBlanks cs with
  | case1 => cases h
  | case2 => cases h
  | case3 body comment hc more hm ih =>
      cases h
      exact (((ih hm).trans (commentEnd?_suffix hc)).trans (List.suffix_cons _ _)).trans
        (List.suffix_cons _ _)
  | case4 c rest _ _ ih =>
      cases hs : skipBlanks rest with
      | error _ => simp [hs, Except.map] at h
      | ok more =>
          rw [hs] at h
          cases h
          exact (ih hs).trans (List.suffix_cons _ _)
  | case5 => cases h; exact List.suffix_refl _
  | case6 => cases h; exact List.suffix_refl _

theorem dropBlank_suffix (cs : List Char) : (dropBlank cs).rest <:+ cs := by
  cases cs with
  | nil => exact List.suffix_refl _
  | cons c rest =>
      simp only [dropBlank]
      split
      · exact List.suffix_cons _ _
      · exact List.suffix_refl _

theorem hexDigits_suffix (cs : List Char) (room : Nat) : (hexDigits cs room).rest <:+ cs := by
  induction room generalizing cs with
  | zero =>
      rw [hexDigits]
      exact List.suffix_refl _
  | succ room ih =>
      cases cs with
      | nil => exact List.suffix_refl _
      | cons c rest =>
          simp only [hexDigits]
          split
          · exact (ih rest).trans (List.suffix_cons _ _)
          · exact List.suffix_refl _

theorem escaped_suffix (first : Char) (rest : List Char) : (escaped first rest).rest <:+ rest := by
  unfold escaped
  split
  · exact (dropBlank_suffix _).trans (hexDigits_suffix _ _)
  · exact List.suffix_refl _

theorem escape_suffix {cs : List Char} {read : Reading Char Char cs.length}
    (h : escape cs = .ok read) : read.rest <:+ cs := by
  cases cs with
  | nil => cases h
  | cons first rest =>
      cases h
      exact (escaped_suffix first rest).trans (List.suffix_cons _ _)

theorem name_suffix {cs : List Char} {read : Reading Char (List Char) (cs.length + 1)}
    (h : name cs = .ok read) : read.rest <:+ cs := by
  fun_induction name cs with
  | case1 => cases h; exact List.suffix_refl _
  | case2 => cases h
  | case3 c rest _ more hm ih =>
      cases h
      exact (ih hm).trans (List.suffix_cons _ _)
  | case4 => cases h
  | case5 => cases h
  | case6 c rest _ _ first hf more hm ih =>
      cases h
      exact ((ih hm).trans (escape_suffix hf)).trans (List.suffix_cons _ _)
  | case7 => cases h; exact List.suffix_refl _

theorem nameFrom_suffix {c : Char} {cs : List Char}
    {read : Reading Char (List Char) (c :: cs).length}
    (h : nameFrom c cs = .ok read) : read.rest <:+ cs := by
  unfold nameFrom at h
  split at h
  · cases hn : name cs with
    | error _ => simp [hn, Except.map] at h
    | ok more =>
        rw [hn] at h
        cases h
        have := name_suffix hn
        exact this
  · cases hf : escape cs with
    | error _ => simp [hf, bind, Except.bind] at h
    | ok first =>
        cases hn : name first.rest with
        | error _ => simp [hf, hn, bind, Except.bind] at h
        | ok more =>
            simp only [hf, hn, bind, Except.bind, pure, Except.pure, Except.ok.injEq] at h
            subst h
            exact (name_suffix hn).trans (escape_suffix hf)

theorem quoted_suffix {quote : Char} {cs : List Char} {read : Reading Char (List Char) cs.length}
    (h : quoted quote cs = some read) : read.rest <:+ cs := by
  fun_induction quoted quote cs with
  | case1 => cases h
  | case2 => cases h; exact List.suffix_cons _ _
  | case3 => cases h
  | case4 => cases h
  | case5 rest _ _ ih =>
      obtain ⟨more, hm, rfl⟩ := Option.map_eq_some_iff.1 h
      exact ((ih hm).trans (List.suffix_cons _ _)).trans (List.suffix_cons _ _)
  | case6 => cases h
  | case7 first rest _ more hm _ _ ih =>
      cases h
      exact (((ih hm).trans (escaped_suffix _ _)).trans (List.suffix_cons _ _)).trans
        (List.suffix_cons _ _)
  | case8 c rest _ _ _ ih =>
      obtain ⟨more, hm, rfl⟩ := Option.map_eq_some_iff.1 h
      exact (ih hm).trans (List.suffix_cons _ _)

theorem comparisonFrom?_suffix {c : Char} {cs : List Char} {read : Reading Char Kind cs.length}
    (h : comparisonFrom? c cs = some read) : read.rest <:+ cs := by
  unfold comparisonFrom? at h
  split at h
  · obtain ⟨kind, _, rfl⟩ := Option.map_eq_some_iff.1 h
    exact List.suffix_cons _ _
  · cases h

theorem symbolFrom_suffix (c : Char) (cs : List Char) : (symbolFrom c cs).rest <:+ cs := by
  unfold symbolFrom
  split
  · exact List.suffix_refl _
  · split
    · next h => exact comparisonFrom?_suffix h
    · exact List.suffix_refl _

theorem nameKind_suffix (value cs : List Char) : (nameKind value cs).rest <:+ cs := by
  unfold nameKind
  split
  · exact List.suffix_cons _ _
  · exact List.suffix_refl _

theorem kindFrom_suffix {c : Char} {cs : List Char} {read : Reading Char Kind (c :: cs).length}
    (h : kindFrom c cs = .ok read) : read.rest <:+ cs := by
  unfold kindFrom at h
  split at h
  · cases hb : skipBlanks cs with
    | error _ => simp [hb, Except.map] at h
    | ok tail => rw [hb] at h; cases h; exact skipBlanks_suffix hb
  split at h
  · split at h
    · cases h
    · next hq => cases h; exact quoted_suffix hq
  split at h
  · cases hn : name cs with
    | error _ => simp [hn, Except.map] at h
    | ok more => rw [hn] at h; cases h; exact name_suffix hn
  split at h
  · cases h; exact List.dropWhile_suffix _
  split at h
  · cases hn : nameFrom c cs with
    | error _ => simp [hn, bind, Except.bind] at h
    | ok value =>
        simp only [hn, bind, Except.bind, pure, Except.pure, Except.ok.injEq] at h
        subst h
        exact (nameKind_suffix _ _).trans (nameFrom_suffix hn)
  split at h
  · cases h
  · cases h; exact symbolFrom_suffix c cs

end CssQuery.Token
