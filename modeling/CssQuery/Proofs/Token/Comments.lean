import CssQuery.Proofs.Reading
import CssQuery.Token.Scan.Suffix

namespace CssQuery.Token

-- A comment is closed by the first "*/" after its opening.
def IsComment (cs : List Char) : Prop :=
  ∃ body, cs = '/' :: '*' :: (body ++ ['*', '/']) ∧ ¬ ['*', '/'] <:+: body ++ ['*']

inductive Comments : List Char → Prop
  | nil : Comments []
  | cons {comment more : List Char} (hcomment : IsComment comment) (hmore : Comments more) :
      Comments (comment ++ more)

-- Blanks with comments among them.
inductive BlankRun : List Char → Prop
  | nil : BlankRun []
  | blank {b : Char} {more : List Char} (hb : Text.isBlank b = true) (h : BlankRun more) :
      BlankRun (b :: more)
  | comment {comment more : List Char} (hcomment : IsComment comment) (h : BlankRun more) :
      BlankRun (comment ++ more)

-- Where a run of blanks cannot go on.
structure EndsBlank (cs : List Char) : Prop where
  blank : cs.head?.any Text.isBlank = false
  comment : ∀ body, cs ≠ '/' :: '*' :: body

variable {b c : Char} {body comment cs gap rest run tail : List Char}

theorem commentEnd?_closes {read : Reading Char Unit cs.length} (h : commentEnd? cs = some read) :
    ∃ body, cs = body ++ '*' :: '/' :: read.rest ∧ ¬ ['*', '/'] <:+: body ++ ['*'] := by
  fun_induction commentEnd? cs with
  | case1 => cases h
  | case2 rest =>
      cases h
      refine ⟨[], rfl, fun hi => ?_⟩
      have hlength := hi.length_le
      simp at hlength
  | case3 c rest hne ih =>
      obtain ⟨more, hm, rfl⟩ := Option.map_eq_some_iff.1 h
      obtain ⟨body, hrest, hbody⟩ := ih hm
      refine ⟨c :: body, congrArg (c :: ·) hrest, ?_⟩
      rw [List.cons_append, List.infix_cons_iff, not_or]
      refine ⟨fun hp => ?_, hbody⟩
      -- the comment would have ended one character earlier
      obtain ⟨rfl, hslash⟩ := List.cons_prefix_cons.1 hp
      cases body with
      | nil => simp at hslash
      | cons d body =>
          obtain ⟨rfl, -⟩ := List.cons_prefix_cons.1 hslash
          exact hne (body ++ '*' :: '/' :: more.rest) rfl hrest

theorem finds_commentEnd? (h : ¬ ['*', '/'] <:+: body ++ ['*']) :
    Finds (commentEnd? (body ++ '*' :: '/' :: rest)) () rest := by
  induction body with
  | nil =>
      rw [List.nil_append, commentEnd?]
      exact finds_some.2 ⟨rfl, rfl⟩
  | cons c body ih =>
      rw [List.cons_append, List.infix_cons_iff, not_or] at h
      rw [List.cons_append, commentEnd?]
      · exact finds_map.2 ⟨(), rest, ih h.2, rfl, rfl⟩
      -- a comment that ended here would end earlier than it does
      · rintro more rfl hslash
        refine h.1 (List.cons_prefix_cons.2 ⟨rfl, ?_⟩)
        cases body with
        | nil => cases hslash
        | cons d body =>
            obtain ⟨rfl, -⟩ := List.cons_eq_cons.1 hslash
            exact List.cons_prefix_cons.2 ⟨rfl, List.nil_prefix⟩

variable (rest) in
theorem IsComment.exists_finds {comment : List Char} (h : IsComment comment) :
    ∃ body, comment ++ rest = '/' :: '*' :: body ∧ Finds (commentEnd? body) () rest := by
  obtain ⟨body, rfl, hbody⟩ := h
  exact ⟨_, by simp, finds_commentEnd? hbody⟩

theorem exists_isComment {read : Reading Char Unit cs.length} (h : commentEnd? cs = some read) :
    ∃ comment, '/' :: '*' :: cs = comment ++ read.rest ∧ IsComment comment := by
  obtain ⟨body, hcs, hbody⟩ := commentEnd?_closes h
  refine ⟨'/' :: '*' :: (body ++ ['*', '/']), ?_, body, rfl, hbody⟩
  calc '/' :: '*' :: cs
      = '/' :: '*' :: (body ++ '*' :: '/' :: read.rest) := congrArg ('/' :: '*' :: ·) hcs
    _ = '/' :: '*' :: (body ++ ['*', '/']) ++ read.rest := by simp

theorem skipComments_comments {read : Reading Char Unit (cs.length + 1)}
    (h : skipComments cs = .ok read) : ∃ gap, cs = gap ++ read.rest ∧ Comments gap := by
  fun_induction skipComments cs with
  | case1 => cases h
  | case2 => cases h
  | case3 body comment hc more hm ih =>
      cases h
      obtain ⟨text, hbody, htext⟩ := exists_isComment hc
      obtain ⟨gap, hrest, hgap⟩ := ih hm
      refine ⟨text ++ gap, ?_, .cons htext hgap⟩
      calc '/' :: '*' :: body
          = text ++ comment.rest := hbody
        _ = text ++ (gap ++ more.rest) := congrArg (text ++ ·) hrest
        _ = text ++ gap ++ more.rest := (List.append_assoc _ _ _).symm
  | case4 =>
      cases h
      exact ⟨[], rfl, .nil⟩

theorem skipComments_stops {read : Reading Char Unit (cs.length + 1)}
    (h : skipComments cs = .ok read) : ∀ body, read.rest ≠ '/' :: '*' :: body := by
  fun_induction skipComments cs with
  | case1 => cases h
  | case2 => cases h
  | case3 body comment hc more hm ih =>
      cases h
      exact ih hm
  | case4 cs hopen =>
      cases h
      exact hopen

theorem skipComments_eq (h : ∀ body, cs ≠ '/' :: '*' :: body) :
    skipComments cs = .ok (.ofNone () cs) := by
  rw [skipComments]
  exact h

theorem yields_skipComments (hgap : Comments gap) (hrest : ∀ body, rest ≠ '/' :: '*' :: body) :
    Yields (skipComments (gap ++ rest)) () rest := by
  induction hgap with
  | nil =>
      rw [List.nil_append, skipComments_eq hrest]
      exact yields_ok.2 ⟨rfl, rfl⟩
  | @cons comment more hcomment _ ih =>
      obtain ⟨body, hopen, hlt, hclose⟩ := hcomment.exists_finds (more ++ rest)
      obtain ⟨hlt', hmore⟩ := yields_iff.1 ih
      rw [List.append_assoc, hopen, skipComments, hclose]
      simp only [hmore]
      exact yields_ok.2 ⟨rfl, rfl⟩

theorem yields_skipComments_iff : Yields (skipComments cs) () rest ↔
    ∃ gap, cs = gap ++ rest ∧ Comments gap ∧ ∀ body, rest ≠ '/' :: '*' :: body := by
  constructor
  · intro h
    obtain ⟨hlt, hread⟩ := yields_iff.1 h
    obtain ⟨gap, hcs, hgap⟩ := skipComments_comments hread
    exact ⟨gap, hcs, hgap, skipComments_stops hread⟩
  · rintro ⟨gap, rfl, hgap, hopen⟩
    exact yields_skipComments hgap hopen

-- Where a run of blanks ends, there is neither a blank nor a comment.
theorem skipBlanks_stops {read : Reading Char Unit (cs.length + 1)}
    (h : skipBlanks cs = .ok read) :
    read.rest.head?.any Text.isBlank = false ∧ ∀ body, read.rest ≠ '/' :: '*' :: body := by
  fun_induction skipBlanks cs with
  | case1 => cases h
  | case2 => cases h
  | case3 body comment hc more hm ih =>
      cases h
      exact ih hm
  | case4 c rest _ _ ih =>
      cases hs : skipBlanks rest with
      | error _ => simp [hs, Except.map] at h
      | ok more =>
          rw [hs] at h
          cases h
          exact ih hs
  | case5 c rest hopen hc =>
      cases h
      refine ⟨by simpa using hc, fun body he => ?_⟩
      obtain ⟨rfl, rfl⟩ := List.cons_eq_cons.1 he
      exact hopen body rfl rfl
  | case6 =>
      cases h
      exact ⟨rfl, fun body he => List.cons_ne_nil _ _ he.symm⟩

theorem exists_blankRun {read : Reading Char Unit (cs.length + 1)}
    (h : skipBlanks cs = .ok read) : ∃ run, cs = run ++ read.rest ∧ BlankRun run := by
  fun_induction skipBlanks cs with
  | case1 => cases h
  | case2 => cases h
  | case3 body comment hc more hm ih =>
      cases h
      obtain ⟨text, hbody, htext⟩ := exists_isComment hc
      obtain ⟨run, hrest, hrun⟩ := ih hm
      refine ⟨text ++ run, ?_, .comment htext hrun⟩
      calc '/' :: '*' :: body
          = text ++ comment.rest := hbody
        _ = text ++ (run ++ more.rest) := congrArg (text ++ ·) hrest
        _ = text ++ run ++ more.rest := (List.append_assoc _ _ _).symm
  | case4 c tail _ hc ih =>
      cases hs : skipBlanks tail with
      | error _ => simp [hs, Except.map] at h
      | ok more =>
          rw [hs] at h
          cases h
          obtain ⟨run, hrest, hrun⟩ := ih hs
          exact ⟨c :: run, congrArg (c :: ·) hrest, .blank hc hrun⟩
  | case5 =>
      cases h
      exact ⟨[], rfl, .nil⟩
  | case6 =>
      cases h
      exact ⟨[], rfl, .nil⟩

theorem skipBlanks_cons (h : ∀ body, c :: tail ≠ '/' :: '*' :: body) : skipBlanks (c :: tail) =
    if Text.isBlank c then (skipBlanks tail).map (·.weaken) else .ok (.ofNone () (c :: tail)) := by
  rw [skipBlanks]
  rintro body rfl rfl
  exact h body rfl

theorem not_opens_of_isBlank (h : Text.isBlank c = true) :
    ∀ body, c :: tail ≠ '/' :: '*' :: body := by
  rintro body heq
  obtain ⟨rfl, -⟩ := List.cons_eq_cons.1 heq
  cases h

theorem yields_skipBlanks (hrun : BlankRun run) (hrest : EndsBlank rest) :
    Yields (skipBlanks (run ++ rest)) () rest := by
  induction hrun with
  | nil =>
      cases rest with
      | nil =>
          rw [List.nil_append, skipBlanks]
          exact yields_ok.2 ⟨rfl, rfl⟩
      | cons c rest =>
          have hc : Text.isBlank c = false := hrest.blank
          rw [List.nil_append, skipBlanks_cons hrest.comment, hc]
          exact yields_ok.2 ⟨rfl, rfl⟩
  | @blank b more hb _ ih =>
      rw [List.cons_append, skipBlanks_cons (not_opens_of_isBlank hb), if_pos hb,
        yields_map_weaken]
      exact ih
  | @comment comment more hcomment _ ih =>
      obtain ⟨body, hopen, hlt, hclose⟩ := hcomment.exists_finds (more ++ rest)
      obtain ⟨hlt', hmore⟩ := yields_iff.1 ih
      rw [List.append_assoc, hopen, skipBlanks, hclose]
      simp only [hmore]
      exact yields_ok.2 ⟨rfl, rfl⟩

theorem yields_skipBlanks_iff : Yields (skipBlanks cs) () rest ↔
    ∃ run, cs = run ++ rest ∧ BlankRun run ∧ EndsBlank rest := by
  constructor
  · intro h
    obtain ⟨hlt, hread⟩ := yields_iff.1 h
    obtain ⟨run, hcs, hrun⟩ := exists_blankRun hread
    obtain ⟨hblank, hopen⟩ := skipBlanks_stops hread
    exact ⟨run, hcs, hrun, hblank, hopen⟩
  · rintro ⟨run, rfl, hrun, hrest⟩
    exact yields_skipBlanks hrun hrest

theorem Comments.append {a b : List Char} (ha : Comments a) (hb : Comments b) :
    Comments (a ++ b) := by
  induction ha with
  | nil => exact hb
  | cons hcomment _ ih => rw [List.append_assoc]; exact .cons hcomment ih

theorem BlankRun.append {a b : List Char} (ha : BlankRun a) (hb : BlankRun b) :
    BlankRun (a ++ b) := by
  induction ha with
  | nil => exact hb
  | blank hblank _ ih => exact .blank hblank ih
  | comment hcomment _ ih => rw [List.append_assoc]; exact .comment hcomment ih

theorem IsComment.comments (h : IsComment comment) : Comments comment := by
  have hcomments := Comments.cons h .nil
  rwa [List.append_nil] at hcomments

theorem IsComment.blankRun (h : IsComment comment) : BlankRun comment := by
  have hrun := BlankRun.comment h .nil
  rwa [List.append_nil] at hrun

variable (rest) in
theorem IsComment.head? (h : IsComment comment) : (comment ++ rest).head? = some '/' := by
  obtain ⟨body, rfl, -⟩ := h
  rfl

theorem Comments.head? (h : Comments gap) (hhead : (gap ++ rest).head? = some c) (hc : c ≠ '/') :
    gap = [] := by
  cases h with
  | nil => rfl
  | @cons comment more hcomment =>
      rw [List.append_assoc, hcomment.head?] at hhead
      exact absurd (Option.some.inj hhead).symm hc

end CssQuery.Token
