import CssQuery.Proofs.Lists
import CssQuery.Proofs.Selector.Formula
import CssQuery.Proofs.Text.Blanks
import CssQuery.Proofs.Text.Utf8

namespace CssQuery

namespace Formula

open Text (Blank Respaced)

namespace Sign

def symbol : Sign → Char
  | plus => '+'
  | minus => '-'

-- The number with the sign.
def of : Sign → Nat → Int
  | plus, n => n
  | minus, n => -n

end Sign

-- A run of digits and the number they tell.
structure IsDigits (ds : List Char) (n : Nat) : Prop where
  ne_nil : ds ≠ []
  digits : ∀ d ∈ ds, d.isDigit = true
  value : Nat.ofDigitChars 10 ds 0 = n

-- A number, with or without a sign.
inductive SignedForm : List Char → Int → Prop
  | bare {ds : List Char} {n : Nat} (hds : IsDigits ds n) : SignedForm ds n
  | signed {s : Sign} {ds : List Char} {n : Nat} (hds : IsDigits ds n) :
      SignedForm (s.symbol :: ds) (s.of n)

-- What stands before the letter n. Without a number it counts as one.
inductive StepForm : List Char → Int32 → Prop
  | none : StepForm [] 1
  | sign {s : Sign} {a : Int32} (ha : a.toInt = s.of 1) : StepForm [s.symbol] a
  | number {cs : List Char} {a : Int32} (ha : SignedForm cs a.toInt) : StepForm cs a

-- What stands behind the letter n. The digits have to fit the word without their sign.
inductive OffsetForm : List Char → Int32 → Prop
  | none : OffsetForm [] 0
  | signed {s : Sign} {bs cs ds : List Char} {n : Nat} {b : Int32} (hbs : Blank bs)
      (hcs : Blank cs) (hds : IsDigits ds n) (hn : n ≤ 2147483647) (hb : b.toInt = s.of n) :
      OffsetForm (bs ++ s.symbol :: (cs ++ ds)) b

-- The texts of formulas, in lower case and without blanks around them.
inductive Form : List Char → Formula → Prop
  | odd : Form ['o', 'd', 'd'] ⟨2, 1⟩
  | even : Form ['e', 'v', 'e', 'n'] ⟨2, 0⟩
  | number {cs : List Char} {b : Int32} (hb : SignedForm cs b.toInt) : Form cs ⟨0, b⟩
  | steps {as bs : List Char} {a b : Int32} (ha : StepForm as a) (hb : OffsetForm bs b) :
      Form (as ++ 'n' :: bs) ⟨a, b⟩

variable {c : Char} {as bs cs ds : List Char} {n : Nat} {s : Sign} {a b x : Int32} {f : Formula}

theorem isDigits_iff : IsDigits ds n ↔ Text.isDigits ds = true ∧ Text.decimal ds = n := by
  have hvalue : Text.decimal ds = Nat.ofDigitChars 10 ds 0 := rfl
  rw [hvalue, Text.isDigits, Bool.and_eq_true, Bool.not_eq_true', List.isEmpty_eq_false_iff,
    List.all_eq_true]
  exact ⟨fun h => ⟨⟨h.ne_nil, h.digits⟩, h.value⟩, fun h => ⟨h.1.1, h.1.2, h.2⟩⟩

theorem ofInt_eq_some {p : Prop} [Decidable p] {y : Int}
    (h : p ↔ -2147483648 ≤ y ∧ y ≤ 2147483647) :
    (if p then some (Int32.ofInt y) else none) = some x ↔ x.toInt = y := by
  have hlow := x.le_toInt
  have hhigh := x.toInt_lt
  rw [Option.ite_none_right_eq_some, Option.some_inj, h, ← Int32.toInt_inj]
  constructor
  · rintro ⟨hy, hx⟩
    rw [← hx, Int32.toInt_ofInt_of_le (by omega) (by omega)]
  · intro hx
    have hy : -2147483648 ≤ y ∧ y ≤ 2147483647 := by omega
    exact ⟨hy, by rw [Int32.toInt_ofInt_of_le (by omega) (by omega), hx]⟩

theorem apply?_eq_some : s.apply? n = some x ↔ x.toInt = s.of n := by
  cases s with
  | plus => exact ofInt_eq_some (by rw [largest]; omega)
  | minus => exact ofInt_eq_some (by rw [largest]; omega)

-- A sign is no digit, no blank and not the letter n.
theorem Sign.plain (s : Sign) : s.symbol.isDigit = false ∧ Text.isBlank s.symbol = false ∧
    s.symbol ≠ 'n' := by
  cases s <;> decide

theorem sign_symbol : sign (s.symbol :: cs) = (s, cs) := by
  cases s <;> rfl

theorem sign_cases (cs : List Char) :
    (∃ s rest, cs = s.symbol :: rest ∧ sign cs = (s, rest)) ∨
      sign cs = (.plus, cs) ∧ ∀ s : Sign, cs.head? ≠ some s.symbol := by
  by_cases h : ∃ s : Sign, cs.head? = some s.symbol
  · obtain ⟨s, hs⟩ := h
    obtain ⟨rest, rfl⟩ := List.head?_eq_some_iff.1 hs
    exact .inl ⟨s, rest, rfl, sign_symbol⟩
  · rw [not_exists] at h
    refine .inr ⟨?_, h⟩
    unfold sign
    split
    · exact absurd rfl (h .plus)
    · exact absurd rfl (h .minus)
    · rfl

theorem IsDigits.head?_ne (h : IsDigits ds n) (s : Sign) : ds.head? ≠ some s.symbol := by
  intro hhead
  have hdigit := h.digits _ (List.mem_of_head? hhead)
  rw [s.plain.1] at hdigit
  cases hdigit

theorem IsDigits.sign_eq (h : IsDigits ds n) : sign ds = (.plus, ds) := by
  obtain ⟨s, rest, rfl, -⟩ | ⟨hsign, -⟩ := sign_cases ds
  · exact absurd rfl (h.head?_ne s)
  · exact hsign

theorem signedForm_iff {y : Int} :
    SignedForm cs y ↔ ∃ n, IsDigits (sign cs).2 n ∧ y = (sign cs).1.of n := by
  constructor
  · rintro (⟨hds⟩ | ⟨hds⟩)
    · rw [hds.sign_eq]
      exact ⟨_, hds, rfl⟩
    · rw [sign_symbol]
      exact ⟨_, hds, rfl⟩
  · rintro ⟨n, hds, rfl⟩
    obtain ⟨s, rest, rfl, hsign⟩ | ⟨hsign, -⟩ := sign_cases cs
    · rw [hsign] at hds ⊢
      exact .signed hds
    · rw [hsign] at hds ⊢
      exact .bare hds

theorem signed?_eq_some : signed? cs = some x ↔ SignedForm cs x.toInt := by
  rw [signedForm_iff]
  simp only [signed?, Option.ite_none_right_eq_some, apply?_eq_some, isDigits_iff]
  grind

theorem step?_symbol : step? [s.symbol] = s.apply? 1 := by
  cases s <;> rfl

theorem step?_of_ne (hne : cs ≠ []) (h : ∀ s : Sign, cs ≠ [s.symbol]) : step? cs = signed? cs := by
  unfold step?
  split
  · exact absurd rfl hne
  · exact absurd rfl (h .plus)
  · exact absurd rfl (h .minus)
  · rfl

theorem not_signedForm_nil {y : Int} : ¬ SignedForm [] y := by
  rw [signedForm_iff]
  rintro ⟨n, hds, -⟩
  exact hds.ne_nil rfl

theorem not_signedForm_symbol {y : Int} : ¬ SignedForm [s.symbol] y := by
  rw [signedForm_iff, sign_symbol]
  rintro ⟨n, hds, -⟩
  exact hds.ne_nil rfl

theorem step?_eq_some : step? cs = some a ↔ StepForm cs a := by
  constructor
  · intro h
    by_cases hnil : cs = []
    · subst hnil
      obtain rfl := Option.some.inj h
      exact .none
    by_cases hsign : ∃ s : Sign, cs = [s.symbol]
    · obtain ⟨s, rfl⟩ := hsign
      rw [step?_symbol, apply?_eq_some] at h
      exact .sign h
    · rw [step?_of_ne hnil (not_exists.1 hsign), signed?_eq_some] at h
      exact .number h
  · rintro (_ | ⟨ha⟩ | ⟨ha⟩)
    · rfl
    · rw [step?_symbol]
      exact apply?_eq_some.2 ha
    · rw [step?_of_ne, signed?_eq_some]
      · exact ha
      · rintro rfl
        exact not_signedForm_nil ha
      · rintro s rfl
        exact not_signedForm_symbol ha

theorem magnitude?_eq_some : offset?.magnitude? s ds = some b ↔
    ∃ n, IsDigits ds n ∧ n ≤ 2147483647 ∧ b.toInt = s.of n := by
  rw [offset?.magnitude?, Option.ite_none_right_eq_some, Bool.and_eq_true, decide_eq_true_iff,
    apply?_eq_some]
  simp only [isDigits_iff, largest]
  grind

theorem offset?_symbol (hbs : Blank bs) :
    offset? (bs ++ s.symbol :: cs) = offset?.magnitude? s (Text.trimStart cs) := by
  have hstart : Text.trimStart (bs ++ s.symbol :: cs) = s.symbol :: cs := by
    refine Text.trimStart_append hbs ?_
    rintro _ ⟨⟩
    exact s.plain.2.1
  rw [offset?, hstart]
  cases s <;> rfl

theorem offset?_of_head (h : ∀ s : Sign, (Text.trimStart cs).head? ≠ some s.symbol) :
    offset? cs = if Text.trimStart cs = [] then some 0 else none := by
  unfold offset?
  split
  · next hnil => rw [if_pos hnil]
  · next hplus => exact absurd (congrArg List.head? hplus) (h .plus)
  · next hminus => exact absurd (congrArg List.head? hminus) (h .minus)
  · next hne _ _ => rw [if_neg hne]

-- Blanks alone write no offset, and so the text may not end with one.
theorem offset?_eq_some (hlast : ∀ c ∈ cs.getLast?, Text.isBlank c = false) :
    offset? cs = some b ↔ OffsetForm cs b := by
  constructor
  · intro h
    obtain ⟨bs, hcs, hbs⟩ := Text.exists_trimStart cs
    obtain ⟨s, rest, hrest, -⟩ | ⟨-, hnone⟩ := sign_cases (Text.trimStart cs)
    · rw [hrest] at hcs
      obtain ⟨ds, htail, hblank⟩ := Text.exists_trimStart rest
      rw [hcs, offset?_symbol hbs, magnitude?_eq_some] at h
      obtain ⟨n, hds, hn, hb⟩ := h
      rw [hcs, htail]
      exact .signed hbs hblank hds hn hb
    · rw [offset?_of_head hnone] at h
      obtain ⟨hnil, hb⟩ := Option.ite_none_right_eq_some.1 h
      obtain rfl := Option.some.inj hb
      rw [hnil, List.append_nil] at hcs
      subst hcs
      obtain rfl | ⟨front, c, rfl⟩ := List.eq_nil_or_concat cs
      · exact .none
      · have hblank := hbs c (by simp)
        rw [hlast c (by simp)] at hblank
        cases hblank
  · rintro (_ | ⟨hbs, hcs, hds, hn, hb⟩)
    · rfl
    · rw [offset?_symbol hbs, Text.trimStart_append hcs, magnitude?_eq_some]
      · exact ⟨_, hds, hn, hb⟩
      · intro d hd
        exact Text.isBlank_of_isDigit (hds.digits d (List.mem_of_head? hd))

-- Digits and signs are the characters of numbers.
theorem SignedForm.mem {y : Int} (h : SignedForm cs y) (hc : c ∈ cs) :
    c.isDigit = true ∨ ∃ s : Sign, c = s.symbol := by
  cases h with
  | bare hds => exact .inl (hds.digits c hc)
  | @signed s _ _ hds =>
      obtain rfl | hc := List.mem_cons.1 hc
      · exact .inr ⟨s, rfl⟩
      · exact .inl (hds.digits c hc)

theorem StepForm.mem (h : StepForm as a) (hc : c ∈ as) :
    c.isDigit = true ∨ ∃ s : Sign, c = s.symbol := by
  cases h with
  | none => cases hc
  | @sign s => exact .inr ⟨s, List.mem_singleton.1 hc⟩
  | number ha => exact ha.mem hc

theorem ne_of_numeric (h : c.isDigit = true ∨ ∃ s : Sign, c = s.symbol) :
    c ≠ 'n' ∧ c ≠ 'o' ∧ c ≠ 'e' := by
  obtain hdigit | ⟨s, rfl⟩ := h
  · exact ⟨Text.ne_of_isDigit hdigit rfl, Text.ne_of_isDigit hdigit rfl,
      Text.ne_of_isDigit hdigit rfl⟩
  · cases s <;> decide

theorem SignedForm.not_mem {y : Int} (h : SignedForm cs y) : 'n' ∉ cs :=
  fun hc => (ne_of_numeric (h.mem hc)).1 rfl

theorem StepForm.not_mem (h : StepForm as a) : 'n' ∉ as :=
  fun hc => (ne_of_numeric (h.mem hc)).1 rfl

-- A formula that is told with numbers begins with none of the two words.
theorem Form.words_or (h : Form cs f) : cs = ['o', 'd', 'd'] ∧ f = .odd ∨
    cs = ['e', 'v', 'e', 'n'] ∧ f = .even ∨ ∀ c ∈ cs.head?, c ≠ 'o' ∧ c ≠ 'e' := by
  cases h with
  | odd => exact .inl ⟨rfl, rfl⟩
  | even => exact .inr (.inl ⟨rfl, rfl⟩)
  | number hb =>
      exact .inr (.inr fun c hc => (ne_of_numeric (hb.mem (List.mem_of_head? hc))).2)
  | @steps as bs a b ha hb =>
      refine .inr (.inr fun c hc => ?_)
      cases as with
      | nil =>
          obtain rfl := Option.some.inj hc
          decide
      | cons d as =>
          obtain rfl := Option.some.inj hc
          exact (ne_of_numeric (ha.mem (.head _))).2

theorem form_odd_iff : Form ['o', 'd', 'd'] f ↔ f = odd := by
  constructor
  · intro h
    obtain ⟨-, hf⟩ | ⟨hcs, -⟩ | hhead := h.words_or
    · exact hf
    · cases hcs
    · exact absurd rfl (hhead 'o' rfl).1
  · rintro rfl
    exact .odd

theorem form_even_iff : Form ['e', 'v', 'e', 'n'] f ↔ f = even := by
  constructor
  · intro h
    obtain ⟨hcs, -⟩ | ⟨-, hf⟩ | hhead := h.words_or
    · cases hcs
    · exact hf
    · exact absurd rfl (hhead 'e' rfl).2
  · rintro rfl
    exact .even

theorem form_number_iff (hodd : cs ≠ ['o', 'd', 'd']) (heven : cs ≠ ['e', 'v', 'e', 'n'])
    (hn : 'n' ∉ cs) : Form cs f ↔ ∃ b, SignedForm cs b.toInt ∧ ⟨0, b⟩ = f := by
  constructor
  · intro h
    cases h with
    | odd => exact absurd rfl hodd
    | even => exact absurd rfl heven
    | number hb => exact ⟨_, hb, rfl⟩
    | steps => exact absurd (List.mem_append_right _ (.head _)) hn
  · rintro ⟨b, hb, rfl⟩
    exact .number hb

theorem form_steps_iff (heven : as ++ 'n' :: bs ≠ ['e', 'v', 'e', 'n']) (hn : 'n' ∉ as) :
    Form (as ++ 'n' :: bs) f ↔ ∃ a b, StepForm as a ∧ OffsetForm bs b ∧ ⟨a, b⟩ = f := by
  constructor
  · generalize hcs : as ++ 'n' :: bs = cs
    rintro (_ | _ | ⟨hb⟩ | ⟨ha, hb⟩)
    · have hmem : 'n' ∈ ['o', 'd', 'd'] := hcs ▸ List.mem_append_right _ (.head _)
      simp at hmem
    · exact absurd hcs heven
    · exact absurd (hcs ▸ List.mem_append_right _ (.head _)) hb.not_mem
    · obtain ⟨rfl, rfl⟩ := append_cons_inj hn ha.not_mem hcs
      exact ⟨_, _, ha, hb, rfl⟩
  · rintro ⟨a, b, ha, hb, rfl⟩
    exact .steps ha hb

-- The text of a formula is told by what is left of it without the blanks around it.
theorem ofText?_eq_some_form {text : String} : ofText? text = some f ↔
    Form ((Text.trim text.toList).map Char.toLower) f := by
  have hlast := (Text.trimmed_map_toLower.2 (Text.trims_trim text.toList).1).last
  unfold ofText?
  generalize (Text.trim text.toList).map Char.toLower = cs at hlast ⊢
  dsimp only
  split
  · next hodd => rw [hodd, form_odd_iff, Option.some_inj, eq_comm]
  split
  · next heven => rw [heven, form_even_iff, Option.some_inj, eq_comm]
  next hodd heven =>
  have hcs := List.takeWhile_append_dropWhile (p := (· != 'n')) (l := cs)
  split
  · next hnil =>
      have hn : 'n' ∉ cs := by simpa using List.dropWhile_eq_nil_iff.1 hnil 'n'
      rw [form_number_iff hodd heven hn, Option.map_eq_some_iff]
      simp only [signed?_eq_some]
  · next c rest hrest =>
      obtain rfl : c = 'n' := by
        have hnot := List.head?_dropWhile_not (· != 'n') cs
        rw [hrest] at hnot
        simpa using hnot
      have hn : 'n' ∉ cs.takeWhile (· != 'n') := fun hmem => by
        simpa using List.all_eq_true.1 List.all_takeWhile _ hmem
      rw [hrest] at hcs
      generalize cs.takeWhile (· != 'n') = as at hcs hn ⊢
      subst hcs
      have hlast' : ∀ c ∈ rest.getLast?, Text.isBlank c = false := by
        intro c hc
        refine hlast c ?_
        rw [List.getLast?_append_cons, List.getLast?_cons, hc]
        rfl
      rw [form_steps_iff heven hn]
      simp only [bind, Option.bind_eq_some_iff, step?_eq_some, offset?_eq_some hlast', pure,
        Option.some_inj, exists_and_left]

-- Which texts are read as a formula, and as which one.
theorem ofText?_eq_some_iff {text : String} : ofText? text = some f ↔
    ∃ core, Text.Trims text.toList core ∧ Form (core.map Char.toLower) f := by
  rw [ofText?_eq_some_form]
  simp only [Text.trims_iff, exists_eq_left]

-- A text, in lower case, with a formula in it and nothing else but blanks.
def Holds (cs : List Char) (f : Formula) : Prop :=
  ∃ before core after, cs = before ++ (core ++ after) ∧ Blank before ∧ Blank after ∧ Form core f

theorem isBlank_of_numeric (h : c.isDigit = true ∨ ∃ s : Sign, c = s.symbol) :
    Text.isBlank c = false := by
  obtain hdigit | ⟨s, rfl⟩ := h
  · exact Text.isBlank_of_isDigit hdigit
  · exact s.plain.2.1

theorem OffsetForm.trimmed (h : OffsetForm bs b) : ∀ c ∈ bs.getLast?, Text.isBlank c = false := by
  cases h with
  | none => nofun
  | signed hbs hcs hds hn hb =>
      intro c hc
      have hne := hds.ne_nil
      rw [← List.singleton_append, ← List.append_assoc, ← List.append_assoc,
        List.getLast?_append_of_ne_nil _ hne] at hc
      exact Text.isBlank_of_isDigit (hds.digits c (List.mem_of_getLast? hc))

theorem Form.trimmed (h : Form cs f) : Text.Trimmed cs := by
  cases h with
  | odd => exact ⟨by rintro _ ⟨⟩; rfl, by rintro _ ⟨⟩; rfl⟩
  | even => exact ⟨by rintro _ ⟨⟩; rfl, by rintro _ ⟨⟩; rfl⟩
  | number hb =>
      exact ⟨fun c hc => isBlank_of_numeric (hb.mem (List.mem_of_head? hc)),
        fun c hc => isBlank_of_numeric (hb.mem (List.mem_of_getLast? hc))⟩
  | @steps as bs a b ha hb =>
      refine ⟨fun c hc => ?_, fun c hc => ?_⟩
      · cases as with
        | nil =>
            obtain rfl := Option.some.inj hc
            rfl
        | cons d as =>
            obtain rfl := Option.some.inj hc
            exact isBlank_of_numeric (ha.mem (.head _))
      · rw [List.getLast?_append_cons] at hc
        cases bs with
        | nil =>
            obtain rfl := Option.some.inj hc
            rfl
        | cons d bs =>
            rw [List.getLast?_cons_cons] at hc
            exact hb.trimmed c hc

theorem ofText?_eq_some_holds {text : String} :
    ofText? text = some f ↔ Holds (text.toList.map Char.toLower) f := by
  rw [ofText?_eq_some_form]
  constructor
  · intro h
    obtain ⟨-, before, after, htext, hbefore, hafter⟩ := Text.trims_trim text.toList
    refine ⟨_, _, _, ?_, Text.blank_map_toLower.2 hbefore, Text.blank_map_toLower.2 hafter, h⟩
    rw [← List.map_append, ← List.map_append, ← htext]
  · rintro ⟨before, core, after, htext, hbefore, hafter, h⟩
    obtain ⟨before, rest, hrest, rfl, htail⟩ := List.map_eq_append_iff.1 htext
    obtain ⟨core, after, rfl, rfl, rfl⟩ := List.map_eq_append_iff.1 htail
    have htrims : Text.Trims text.toList core :=
      ⟨Text.trimmed_map_toLower.1 h.trimmed, before, after, hrest,
        Text.blank_map_toLower.1 hbefore, Text.blank_map_toLower.1 hafter⟩
    rwa [← htrims.eq]

-- Which blanks there are does not matter, but where there are some.
theorem Holds.respaced (h : Holds as f) (hspaced : Respaced as bs) : Holds bs f := by
  obtain ⟨before, core, after, rfl, hbefore, hafter, h⟩ := h
  obtain ⟨before', rest, rfl, hbefore', hrest⟩ := hspaced.exists_of_gap hbefore
  have hsolid (hcore : ∀ c ∈ core, Text.isBlank c = false) : Holds (before' ++ rest) f := by
    obtain ⟨after', rfl, hafter'⟩ := hrest.exists_of_solid hcore
    exact ⟨before', core, after', rfl, hbefore', hafter'.blank hafter, h⟩
  cases h with
  | odd => exact hsolid (by simp [Text.isBlank])
  | even => exact hsolid (by simp [Text.isBlank])
  | number hb => exact hsolid fun c hc => isBlank_of_numeric (hb.mem hc)
  | @steps as bs a b ha hb =>
      have hstep : ∀ c ∈ as ++ ['n'], Text.isBlank c = false := by
        rw [List.forall_mem_append, List.forall_mem_singleton]
        exact ⟨fun c hc => isBlank_of_numeric (ha.mem hc), rfl⟩
      cases hb with
      | none => exact hsolid hstep
      | @signed s bs cs ds n b hbs hcs hds hn hb =>
          have hsymbol : Text.isBlank s.symbol = false := s.plain.2.1
          have hdigits (d : Char) (hd : d ∈ ds) := Text.isBlank_of_isDigit (hds.digits d hd)
          have happend : as ++ 'n' :: (bs ++ s.symbol :: (cs ++ ds)) ++ after =
              as ++ ['n'] ++ (bs ++ s.symbol :: (cs ++ (ds ++ after))) := by simp
          rw [happend] at hrest
          obtain ⟨r₁, rfl, h₁⟩ := hrest.exists_of_solid hstep
          obtain ⟨bs', r₂, rfl, hbs', h₂⟩ := h₁.exists_of_gap hbs
          obtain ⟨r₃, rfl, h₃⟩ := h₂.exists_of_char hsymbol
          obtain ⟨cs', r₄, rfl, hcs', h₄⟩ := h₃.exists_of_gap hcs
          obtain ⟨after', rfl, hafter'⟩ := h₄.exists_of_solid hdigits
          exact ⟨before', _, after', by simp, hbefore', hafter'.blank hafter,
            .steps ha (.signed hbs' hcs' hds hn hb)⟩

theorem ofText?_respaced (h : Respaced as bs) :
    ofText? (String.ofList as) = ofText? (String.ofList bs) := by
  ext f
  rw [ofText?_eq_some_holds, ofText?_eq_some_holds, String.toList_ofList, String.toList_ofList]
  exact ⟨fun hf => hf.respaced h.map_toLower, fun hf => hf.respaced h.symm.map_toLower⟩

-- The characters of formulas in lower case.
def isFormulaChar (c : Char) : Bool :=
  Text.isBlank c || c.isDigit || ['o', 'd', 'e', 'v', 'n', '+', '-'].contains c

theorem isFormulaChar_of_blank (h : Text.isBlank c = true) : isFormulaChar c = true := by
  rw [isFormulaChar, h]
  rfl

theorem isFormulaChar_of_numeric (h : c.isDigit = true ∨ ∃ s : Sign, c = s.symbol) :
    isFormulaChar c = true := by
  obtain hdigit | ⟨s, rfl⟩ := h
  · rw [isFormulaChar, hdigit, Bool.or_true]
    rfl
  · cases s <;> rfl

theorem OffsetForm.mem (h : OffsetForm bs b) (hc : c ∈ bs) : isFormulaChar c = true := by
  cases h with
  | none => cases hc
  | @signed s bs cs ds n b hbs hcs hds =>
      obtain hc | hc := List.mem_append.1 hc
      · exact isFormulaChar_of_blank (hbs c hc)
      obtain rfl | hc := List.mem_cons.1 hc
      · exact isFormulaChar_of_numeric (.inr ⟨s, rfl⟩)
      obtain hc | hc := List.mem_append.1 hc
      · exact isFormulaChar_of_blank (hcs c hc)
      · exact isFormulaChar_of_numeric (.inl (hds.digits c hc))

theorem Form.mem (h : Form cs f) (hc : c ∈ cs) : isFormulaChar c = true := by
  cases h with
  | odd => exact List.all_eq_true.1 (show ['o', 'd', 'd'].all isFormulaChar = true from rfl) c hc
  | even =>
      exact List.all_eq_true.1 (show ['e', 'v', 'e', 'n'].all isFormulaChar = true from rfl) c hc
  | number hb => exact isFormulaChar_of_numeric (hb.mem hc)
  | steps ha hb =>
      obtain hc | hc := List.mem_append.1 hc
      · exact isFormulaChar_of_numeric (ha.mem hc)
      obtain rfl | hc := List.mem_cons.1 hc
      · rfl
      · exact hb.mem hc

theorem isFormulaChar_of_ofText? {text : String} (h : ofText? text = some f)
    (hc : c ∈ text.toList) : isFormulaChar c.toLower = true := by
  obtain ⟨before, core, after, htext, hbefore, hafter, hcore⟩ := ofText?_eq_some_holds.1 h
  have hmem : c.toLower ∈ before ++ (core ++ after) := htext ▸ List.mem_map_of_mem hc
  rw [List.mem_append, List.mem_append] at hmem
  obtain hc | hc | hc := hmem
  · exact isFormulaChar_of_blank (hbefore _ hc)
  · exact hcore.mem hc
  · exact isFormulaChar_of_blank (hafter _ hc)

end Formula

end CssQuery
