import CssQuery.Proofs.Reading
import CssQuery.Proofs.Text.Bytes
import CssQuery.Token.Scan.Suffix

namespace CssQuery.Token

open Text (IsBoundary byteSize)

variable {c : Char} {cs : List Char} {lapse : Lapse}

theorem kind?_suffix {read : Reading Char Kind cs.length} (h : kind? cs = .ok (some read)) :
    read.rest <:+ cs := by
  cases cs with
  | nil => cases h
  | cons c rest =>
      cases hk : kindFrom c rest with
      | error _ => simp [kind?, hk, Except.map] at h
      | ok found =>
          simp only [kind?, hk, Except.map, Except.ok.injEq, Option.some.injEq] at h
          subst h
          exact (kindFrom_suffix hk).trans (List.suffix_cons _ _)

-- Whichever scanner fails, what it reports to be ahead is the end of its text.

theorem skipComments_ahead (h : skipComments cs = .error lapse) : lapse.ahead <:+ cs := by
  fun_induction skipComments cs with
  | case1 => cases h; exact List.suffix_refl _
  | case2 body comment hc error hm ih =>
      cases h
      exact (((ih hm).trans (commentEnd?_suffix hc)).trans (List.suffix_cons _ _)).trans
        (List.suffix_cons _ _)
  | case3 => cases h
  | case4 => cases h

theorem skipBlanks_ahead (h : skipBlanks cs = .error lapse) : lapse.ahead <:+ cs := by
  fun_induction skipBlanks cs with
  | case1 => cases h; exact List.suffix_refl _
  | case2 body comment hc error hm ih =>
      cases h
      exact (((ih hm).trans (commentEnd?_suffix hc)).trans (List.suffix_cons _ _)).trans
        (List.suffix_cons _ _)
  | case3 => cases h
  | case4 c rest _ _ ih => exact (ih (map_eq_error.1 h)).trans (List.suffix_cons _ _)
  | case5 => cases h
  | case6 => cases h

theorem escape_ahead (h : escape cs = .error lapse) : lapse.ahead <:+ cs := by
  cases cs with
  | nil => cases h; exact List.suffix_refl _
  | cons first rest => cases h

theorem name_ahead (h : name cs = .error lapse) : lapse.ahead <:+ cs := by
  fun_induction name cs with
  | case1 => cases h
  | case2 c rest _ error hm ih =>
      cases h
      exact (ih hm).trans (List.suffix_cons _ _)
  | case3 => cases h
  | case4 c rest _ _ error hf =>
      cases h
      exact (escape_ahead hf).trans (List.suffix_cons _ _)
  | case5 c rest _ _ first hf error hm ih =>
      cases h
      exact ((ih hm).trans (escape_suffix hf)).trans (List.suffix_cons _ _)
  | case6 => cases h
  | case7 => cases h

theorem nameFrom_ahead (h : nameFrom c cs = .error lapse) : lapse.ahead <:+ cs := by
  unfold nameFrom at h
  split at h
  · exact name_ahead (map_eq_error.1 h)
  · obtain hf | ⟨first, hf, h⟩ := bind_eq_error.1 h
    · exact escape_ahead hf
    · obtain hn | ⟨_, _, ⟨⟩⟩ := bind_eq_error.1 h
      exact (name_ahead hn).trans (escape_suffix hf)

theorem kindFrom_ahead (h : kindFrom c cs = .error lapse) : lapse.ahead <:+ c :: cs := by
  have hinner (hcs : lapse.ahead <:+ cs) : lapse.ahead <:+ c :: cs :=
    hcs.trans (List.suffix_cons _ _)
  unfold kindFrom at h
  split at h
  · exact hinner (skipBlanks_ahead (map_eq_error.1 h))
  split at h
  · split at h
    · cases h; exact List.suffix_refl _
    · cases h
  split at h
  · exact hinner (name_ahead (map_eq_error.1 h))
  split at h
  · cases h
  split at h
  · obtain hn | ⟨_, _, ⟨⟩⟩ := bind_eq_error.1 h
    exact hinner (nameFrom_ahead hn)
  split at h
  · cases h; exact List.suffix_refl _
  · cases h

theorem kind?_ahead (h : kind? cs = .error lapse) : lapse.ahead <:+ cs := by
  cases cs with
  | nil => cases h
  | cons c rest => exact kindFrom_ahead (map_eq_error.1 h)

theorem scanFrom_ahead {offset : Nat} (h : scanFrom offset cs = .error lapse) :
    lapse.ahead <:+ cs := by
  fun_induction scanFrom offset cs with
  | case1 offset cs error hgap =>
      cases h
      exact skipComments_ahead hgap
  | case2 offset cs gap hgap error hkind =>
      cases h
      exact (kind?_ahead hkind).trans (skipComments_suffix hgap)
  | case3 => cases h
  | case4 offset cs gap hgap read hkind start lexeme error hmore ih =>
      cases h
      exact ((ih hmore).trans (kind?_suffix hkind)).trans (skipComments_suffix hgap)
  | case5 => cases h

-- A scan of a text fails where one of its characters begins, or at its end.
theorem isBoundary_of_scan {text : String} {error : SelectorError}
    (h : scan text = .error error) : IsBoundary text error.position := by
  unfold scan at h
  split at h
  · cases h
  · next lapse hlapse =>
      cases h
      obtain ⟨front, hfront⟩ := scanFrom_ahead hlapse
      have hsize : byteSize text.toList - byteSize lapse.ahead = byteSize front := by
        rw [← hfront, Text.byteSize_append, Nat.add_sub_cancel_right]
      rw [SelectorError.position, hsize]
      exact Text.isBoundary_of_append hfront.symm

end CssQuery.Token
