import CssQuery.Proofs.Text.Utf8
import Mathlib.Data.List.TakeWhile
import Mathlib.Data.Option.Basic

namespace CssQuery.Text

variable {cs core before after : List Char}

-- A text of blanks only.
def Blank (cs : List Char) : Prop := ∀ c ∈ cs, isBlank c = true

-- A text that neither begins nor ends with a blank.
structure Trimmed (cs : List Char) : Prop where
  head : ∀ c ∈ cs.head?, isBlank c = false
  last : ∀ c ∈ cs.getLast?, isBlank c = false

-- What is left of a text without the blanks at both its ends.
def Trims (cs core : List Char) : Prop :=
  Trimmed core ∧ ∃ before after, cs = before ++ (core ++ after) ∧ Blank before ∧ Blank after

theorem trimStart_of_head (h : ∀ c ∈ cs.head?, isBlank c = false) : trimStart cs = cs := by
  cases cs with
  | nil => rfl
  | cons c cs => exact List.dropWhile_cons_of_neg (by simp [h c rfl])

theorem head_trimStart (cs : List Char) : ∀ c ∈ (trimStart cs).head?, isBlank c = false := by
  intro c hc
  have hnot := List.head?_dropWhile_not isBlank cs
  rw [show (cs.dropWhile isBlank).head? = some c from hc] at hnot
  simpa using hnot

-- Behind the blanks that a text begins with it goes on with another character.
theorem trimStart_append (hbefore : Blank before) (h : ∀ c ∈ cs.head?, isBlank c = false) :
    trimStart (before ++ cs) = cs :=
  (List.dropWhile_append_of_pos hbefore).trans (trimStart_of_head h)

theorem exists_trimStart (cs : List Char) :
    ∃ before, cs = before ++ trimStart cs ∧ Blank before :=
  ⟨cs.takeWhile isBlank, List.takeWhile_append_dropWhile.symm,
    fun _ hc => List.all_eq_true.1 List.all_takeWhile _ hc⟩

theorem Blank.reverse (h : Blank cs) : Blank cs.reverse :=
  fun c hc => h c (List.mem_reverse.1 hc)

theorem trimEnd_append (hafter : Blank after) (h : ∀ c ∈ cs.getLast?, isBlank c = false) :
    trimEnd (cs ++ after) = cs := by
  rw [trimEnd, List.reverse_append, trimStart_append hafter.reverse, List.reverse_reverse]
  rwa [List.head?_reverse]

theorem exists_trimEnd (cs : List Char) : ∃ after, cs = trimEnd cs ++ after ∧ Blank after := by
  obtain ⟨after, hcs, hafter⟩ := exists_trimStart cs.reverse
  refine ⟨after.reverse, ?_, hafter.reverse⟩
  rw [trimEnd, ← List.reverse_append, ← hcs, List.reverse_reverse]

theorem last_trimEnd (cs : List Char) : ∀ c ∈ (trimEnd cs).getLast?, isBlank c = false := by
  rw [trimEnd, List.getLast?_reverse]
  exact head_trimStart cs.reverse

theorem trims_trim (cs : List Char) : Trims cs (trim cs) := by
  obtain ⟨before, hbefore, hblank⟩ := exists_trimStart cs
  obtain ⟨after, hafter, hblank'⟩ := exists_trimEnd (trimStart cs)
  refine ⟨⟨fun c hc => ?_, last_trimEnd _⟩, before, after, ?_, hblank, hblank'⟩
  · refine head_trimStart cs c ?_
    rw [hafter, List.head?_append, show (trimEnd (trimStart cs)).head? = some c from hc]
    rfl
  · rw [trim, ← hafter, ← hbefore]

theorem Trims.eq (h : Trims cs core) : core = trim cs := by
  obtain ⟨⟨hhead, hlast⟩, before, after, rfl, hbefore, hafter⟩ := h
  cases core with
  | nil =>
      have hall : Blank (before ++ ([] ++ after)) :=
        List.forall_mem_append.2 ⟨hbefore, hafter⟩
      rw [trim, trimStart, List.dropWhile_eq_nil_iff.2 hall]
      rfl
  | cons c core =>
      have hstart : trimStart (before ++ (c :: core ++ after)) = c :: core ++ after :=
        trimStart_append hbefore hhead
      rw [trim, hstart, trimEnd_append hafter hlast]

theorem trims_iff : Trims cs core ↔ core = trim cs := by
  refine ⟨Trims.eq, ?_⟩
  rintro rfl
  exact trims_trim cs

theorem blank_map_toLower : Blank (cs.map Char.toLower) ↔ Blank cs := by
  simp only [Blank, List.forall_mem_map, isBlank_toLower]

theorem trimmed_map_toLower : Trimmed (cs.map Char.toLower) ↔ Trimmed cs := by
  have hplain (beside : Option Char) : (∀ c ∈ beside.map Char.toLower, isBlank c = false) ↔
      ∀ c ∈ beside, isBlank c = false := by
    simp only [Option.forall_mem_map, isBlank_toLower]
  constructor
  · rintro ⟨hhead, hlast⟩
    exact ⟨(hplain _).1 (List.head?_map ▸ hhead), (hplain _).1 (List.getLast?_map ▸ hlast)⟩
  · rintro ⟨hhead, hlast⟩
    exact ⟨List.head?_map ▸ (hplain _).2 hhead, List.getLast?_map ▸ (hplain _).2 hlast⟩

-- The same text with other blanks where there are blanks.
inductive Respaced : List Char → List Char → Prop
  | nil : Respaced [] []
  | char {c : Char} {as bs : List Char} (hc : isBlank c = false) (h : Respaced as bs) :
      Respaced (c :: as) (c :: bs)
  | gap {gap gap' as bs : List Char} (hgap : Blank gap) (hne : gap ≠ []) (hgap' : Blank gap')
      (hne' : gap' ≠ []) (h : Respaced as bs) : Respaced (gap ++ as) (gap' ++ bs)

namespace Respaced

variable {c : Char} {as bs ds gap solid : List Char}

theorem symm (h : Respaced as bs) : Respaced bs as := by
  induction h with
  | nil => exact .nil
  | char hc _ ih => exact .char hc ih
  | gap hgap hne hgap' hne' _ ih => exact .gap hgap' hne' hgap hne ih

theorem append {as' bs' : List Char} (h : Respaced as bs) (h' : Respaced as' bs') :
    Respaced (as ++ as') (bs ++ bs') := by
  induction h with
  | nil => exact h'
  | char hc _ ih => exact .char hc ih
  | gap hgap hne hgap' hne' _ ih =>
      rw [List.append_assoc, List.append_assoc]
      exact .gap hgap hne hgap' hne' ih

theorem map_toLower (h : Respaced as bs) :
    Respaced (as.map Char.toLower) (bs.map Char.toLower) := by
  induction h with
  | nil => exact .nil
  | char hc _ ih => exact .char ((isBlank_toLower _).trans hc) ih
  | gap hgap hne hgap' hne' _ ih =>
      rw [List.map_append, List.map_append]
      exact .gap (blank_map_toLower.2 hgap) (List.map_eq_nil_iff.not.2 hne)
        (blank_map_toLower.2 hgap') (List.map_eq_nil_iff.not.2 hne') ih

theorem refl (cs : List Char) : Respaced cs cs := by
  induction cs with
  | nil => exact .nil
  | cons c cs ih =>
      cases hc : isBlank c with
      | false => exact .char hc ih
      | true =>
          have hgap : Blank [c] := List.forall_mem_singleton.2 hc
          exact .gap hgap (List.cons_ne_nil _ _) hgap (List.cons_ne_nil _ _) ih

theorem of_blank (h : Blank gap) (hne : gap ≠ []) : Respaced gap [' '] := by
  have hspace : Blank [' '] := List.forall_mem_singleton.2 rfl
  have hgap := Respaced.gap h hne hspace (List.cons_ne_nil _ _) .nil
  rwa [List.append_nil] at hgap

theorem exists_of_char (hc : isBlank c = false) (h : Respaced (c :: as) bs) :
    ∃ bs', bs = c :: bs' ∧ Respaced as bs' := by
  generalize hcs : c :: as = cs at h
  cases h with
  | nil => cases hcs
  | char _ h =>
      obtain ⟨rfl, rfl⟩ := List.cons.inj hcs
      exact ⟨_, rfl, h⟩
  | @gap gap _ _ _ hgap hne =>
      obtain ⟨b, gap, rfl⟩ := List.exists_cons_of_ne_nil hne
      obtain ⟨rfl, -⟩ := List.cons.inj hcs
      rw [hgap c (.head _)] at hc
      cases hc

theorem exists_of_blank (hc : isBlank c = true) (h : Respaced (c :: as) bs) :
    ∃ gap bs', bs = gap ++ bs' ∧ Blank gap ∧ Respaced as bs' := by
  generalize hcs : c :: as = cs at h
  cases h with
  | nil => cases hcs
  | char hc' =>
      obtain ⟨rfl, rfl⟩ := List.cons.inj hcs
      rw [hc] at hc'
      cases hc'
  | @gap gap gap' as' bs' hgap hne hgap' hne' h =>
      obtain ⟨b, gap, rfl⟩ := List.exists_cons_of_ne_nil hne
      obtain ⟨rfl, rfl⟩ := List.cons.inj hcs
      by_cases hmore : gap = []
      · subst hmore
        exact ⟨gap', bs', rfl, hgap', h⟩
      -- the run of blanks goes on
      · exact ⟨[], gap' ++ bs', rfl, List.forall_mem_nil _,
          .gap (List.forall_mem_cons.1 hgap).2 hmore hgap' hne' h⟩

theorem exists_of_solid (hsolid : ∀ c ∈ solid, isBlank c = false)
    (h : Respaced (solid ++ as) bs) : ∃ bs', bs = solid ++ bs' ∧ Respaced as bs' := by
  induction solid generalizing bs with
  | nil => exact ⟨bs, rfl, h⟩
  | cons c solid ih =>
      obtain ⟨hc, hmore⟩ := List.forall_mem_cons.1 hsolid
      obtain ⟨tail, rfl, htail⟩ := exists_of_char hc h
      obtain ⟨rest, rfl, hrest⟩ := ih hmore htail
      exact ⟨rest, rfl, hrest⟩

theorem exists_of_gap (hgap : Blank gap) (h : Respaced (gap ++ as) bs) :
    ∃ gap' bs', bs = gap' ++ bs' ∧ Blank gap' ∧ Respaced as bs' := by
  induction gap generalizing bs with
  | nil => exact ⟨[], bs, rfl, hgap, h⟩
  | cons c gap ih =>
      obtain ⟨hc, hmore⟩ := List.forall_mem_cons.1 hgap
      obtain ⟨first, tail, rfl, hfirst, htail⟩ := exists_of_blank hc h
      obtain ⟨more, rest, rfl, hmore', hrest⟩ := ih hmore htail
      exact ⟨first ++ more, rest, (List.append_assoc _ _ _).symm,
        List.forall_mem_append.2 ⟨hfirst, hmore'⟩, hrest⟩

theorem eq_nil (h : Respaced [] bs) : bs = [] := by
  generalize hcs : ([] : List Char) = cs at h
  cases h with
  | nil => rfl
  | char => cases hcs
  | gap _ hne => exact absurd (List.append_eq_nil_iff.1 hcs.symm).1 hne

theorem blank (hgap : Blank gap) (h : Respaced gap bs) : Blank bs := by
  rw [← List.append_nil gap] at h
  obtain ⟨gap', bs, rfl, hgap', h⟩ := exists_of_gap hgap h
  rwa [h.eq_nil, List.append_nil]

end Respaced

end CssQuery.Text
