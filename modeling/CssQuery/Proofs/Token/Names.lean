import CssQuery.Proofs.Reading
import CssQuery.Token.Scan
import Mathlib.Logic.Basic
import Mathlib.Tactic.Simproc.ExistsAndEq

namespace CssQuery.Token

open Text (isHexDigit hexadecimal)

-- The character that a code stands for. The replacement character stands for zero and for
-- codes that no character has.
def Encodes (code : Nat) (c : Char) : Prop :=
  code ≠ 0 ∧ c.toNat = code ∨ (code = 0 ∨ ¬ code.isValidChar) ∧ c = '\uFFFD'

-- A code has one to six hex digits.
structure IsCode (ds : List Char) : Prop where
  ne_nil : ds ≠ []
  length_le : ds.length ≤ 6
  digits : ∀ d ∈ ds, isHexDigit d = true

-- What stands for a character behind a backslash. A code is closed by a blank, which belongs
-- to it, or ends where the text goes on with what could not be part of it.
inductive Escapes (c : Char) : List Char → List Char → Prop
  | plain {rest : List Char} (hhex : isHexDigit c = false) (hline : c ≠ '\n') : Escapes c [c] rest
  | closed {ds rest : List Char} {b : Char} (hds : IsCode ds) (hcode : Encodes (hexadecimal ds) c)
      (hb : Text.isBlank b = true) : Escapes c (ds ++ [b]) rest
  | bare {ds rest : List Char} (hds : IsCode ds) (hcode : Encodes (hexadecimal ds) c)
      (hrest : ∀ b ∈ rest.head?, Text.isBlank b = false ∧ (ds.length < 6 → isHexDigit b = false)) :
      Escapes c ds rest

-- A name is written with characters that stand for themselves and with escapes.
inductive NameSpelling (rest : List Char) : List Char → List Char → Prop
  | nil : NameSpelling rest [] []
  | raw {c : Char} {value spelled : List Char} (hc : isNameChar c = true)
      (h : NameSpelling rest value spelled) : NameSpelling rest (c :: value) (c :: spelled)
  | escape {c : Char} {value escaped spelled : List Char}
      (he : Escapes c escaped (spelled ++ rest)) (h : NameSpelling rest value spelled) :
      NameSpelling rest (c :: value) ('\\' :: (escaped ++ spelled))

-- A string is written with escapes and with any characters but the quote that closes it, a
-- backslash and the ends of lines. An escaped line feed adds nothing.
inductive QuotedSpelling (quote : Char) : List Char → List Char → Prop
  | nil : QuotedSpelling quote [] []
  | raw {c : Char} {value spelled : List Char} (hquote : c ≠ quote) (hescape : c ≠ '\\')
      (hline : ¬ (c = '\n' ∨ c = '\r' ∨ c = '\x0c')) (h : QuotedSpelling quote value spelled) :
      QuotedSpelling quote (c :: value) (c :: spelled)
  | escape {c : Char} {value escaped spelled : List Char}
      (he : Escapes c escaped (spelled ++ [quote])) (h : QuotedSpelling quote value spelled) :
      QuotedSpelling quote (c :: value) ('\\' :: (escaped ++ spelled))
  | join {value spelled : List Char} (h : QuotedSpelling quote value spelled) :
      QuotedSpelling quote value ('\\' :: '\n' :: spelled)

-- Where a name cannot go on.
def EndsName (cs : List Char) : Prop := cs.head?.any isNameChar = false ∧ startsEscape cs = false

-- How a name that is an identifier begins.
def OpensName : List Char → Prop
  | '-' :: c :: _ => isNameStart c = true ∨ c = '-' ∨ c = '\\'
  | c :: _ => isNameStart c = true ∨ c = '\\'
  | [] => False

variable {c first quote : Char} {cs ds tail rest rest' value spelled : List Char} {code room : Nat}

theorem charOfCode_eq_iff : charOfCode code = c ↔ Encodes code c := by
  rw [charOfCode, Encodes]
  split
  · next h =>
      obtain ⟨hne, hvalid⟩ := h
      have hofNat : (Char.ofNat code).toNat = code := by
        rw [Char.ofNat, dif_pos hvalid]
        rfl
      constructor
      · rintro rfl
        exact .inl ⟨hne, hofNat⟩
      · rintro (⟨-, rfl⟩ | ⟨hzero | hinvalid, -⟩)
        · exact Char.ofNat_toNat c
        · exact absurd hzero hne
        · exact absurd hvalid hinvalid
  · next h =>
      constructor
      · rintro rfl
        exact .inr ⟨(not_and_or.1 h).imp_left not_not.1, rfl⟩
      · rintro (⟨hne, rfl⟩ | ⟨-, rfl⟩)
        · exact absurd ⟨hne, c.valid⟩ h
        · rfl

theorem isHexDigit_of_isBlank (h : Text.isBlank c = true) : isHexDigit c = false := by
  simp only [Text.isBlank, Bool.or_eq_true, beq_iff_eq] at h
  rcases h with (((rfl | rfl) | rfl) | rfl) | rfl <;> decide

-- As many digits are read as there are and as there is room for.
theorem hexDigits_iff : ((hexDigits cs room).value = ds ∧ (hexDigits cs room).rest = rest) ↔
    cs = ds ++ rest ∧ (∀ d ∈ ds, isHexDigit d = true) ∧ ds.length ≤ room ∧
      (ds.length < room → ∀ b ∈ rest.head?, isHexDigit b = false) := by
  induction room generalizing cs ds with
  | zero =>
      rw [hexDigits]
      constructor
      · rintro ⟨rfl, rfl⟩
        simp
      · rintro ⟨rfl, -, hlength, -⟩
        obtain rfl := List.eq_nil_of_length_eq_zero (Nat.le_zero.1 hlength)
        exact ⟨rfl, rfl⟩
  | succ room ih =>
      cases cs with
      | nil =>
          rw [hexDigits]
          constructor
          · rintro ⟨rfl, rfl⟩
            simp
          · rintro ⟨happend, -⟩
            obtain ⟨rfl, rfl⟩ := List.append_eq_nil_iff.1 happend.symm
            exact ⟨rfl, rfl⟩
      | cons c cs =>
          rw [hexDigits]
          split
          · next hc =>
              cases ds with
              | nil =>
                  refine iff_of_false (by simp) ?_
                  rintro ⟨rfl, -, -, hend⟩
                  have hhex := hend (Nat.succ_pos room) c rfl
                  simp [hc] at hhex
              | cons d ds =>
                  have hread := @ih cs ds
                  simp only [Reading.weaken_value, Reading.map_value, Reading.weaken_rest,
                    Reading.map_rest, List.cons.injEq, and_assoc, hread, List.cons_append,
                    List.forall_mem_cons, List.length_cons, Nat.add_le_add_iff_right,
                    Nat.add_lt_add_iff_right]
                  refine and_congr_right fun hcd => and_congr_right fun _ => ?_
                  rw [← hcd, hc, eq_self, true_and]
          · next hc =>
              constructor
              · rintro ⟨rfl, rfl⟩
                simpa using hc
              · rintro ⟨happend, hall, -⟩
                cases ds with
                | nil => exact ⟨rfl, happend⟩
                | cons d ds =>
                    obtain ⟨rfl, -⟩ := List.cons_eq_cons.1 happend
                    exact absurd (hall c List.mem_cons_self) hc

theorem dropBlank_rest_iff : (dropBlank cs).rest = rest ↔
    (∃ b, Text.isBlank b = true ∧ cs = b :: rest) ∨
      (∀ b ∈ cs.head?, Text.isBlank b = false) ∧ cs = rest := by
  cases cs with
  | nil => simp [dropBlank]
  | cons c cs =>
      rw [dropBlank]
      split
      · next hc => simp [hc]
      · next hc => simp [hc]

theorem Escapes.exists_cons {escaped : List Char} (h : Escapes c escaped rest) :
    ∃ first more, escaped = first :: more ∧ first ≠ '\n' := by
  have hcode {ds : List Char} (hds : IsCode ds) : ∃ d more, ds = d :: more ∧ d ≠ '\n' := by
    obtain ⟨d, more, rfl⟩ := List.exists_cons_of_ne_nil hds.ne_nil
    refine ⟨d, more, rfl, ?_⟩
    rintro rfl
    cases hds.digits _ List.mem_cons_self
  cases h with
  | plain _ hline => exact ⟨c, [], rfl, hline⟩
  | closed hds =>
      obtain ⟨d, more, rfl, hd⟩ := hcode hds
      exact ⟨d, _, rfl, hd⟩
  | bare hds => exact hcode hds

theorem mem_head?_append {P : Char → Prop} (hhead : ∀ b ∈ rest'.head?, b ∈ rest.head? ∨ P b)
    (h : c ∈ (spelled ++ rest').head?) : c ∈ (spelled ++ rest).head? ∨ P c := by
  cases spelled with
  | nil => exact hhead c h
  | cons => exact .inl h

-- A text that goes on alike takes the same escape, and so does one that goes on with what
-- could be part of none.
theorem Escapes.congr {escaped : List Char} (h : Escapes c escaped rest)
    (hhead : ∀ b ∈ rest'.head?, b ∈ rest.head? ∨ Text.isBlank b = false ∧ isHexDigit b = false) :
    Escapes c escaped rest' := by
  cases h with
  | plain hhex hline => exact .plain hhex hline
  | closed hds hcode hb => exact .closed hds hcode hb
  | bare hds hcode hrest =>
      refine .bare hds hcode fun b hb => ?_
      obtain hsame | ⟨hblank, hhex⟩ := hhead b hb
      · exact hrest b hsame
      · exact ⟨hblank, fun _ => hhex⟩

variable (tail) in
theorem escaped_of_isHexDigit (h : isHexDigit first = true) :
    (escaped first tail).value =
        charOfCode (hexadecimal (first :: (hexDigits tail 5).value)) ∧
      (escaped first tail).rest = (dropBlank (hexDigits tail 5).rest).rest := by
  rw [escaped, if_pos h]
  exact ⟨rfl, rfl⟩

-- An escape is read as what it stands for, and nothing else is read as an escape.
theorem escaped_iff (hfirst : first ≠ '\n') :
    (escaped first tail).value = c ∧ (escaped first tail).rest = rest ↔
      ∃ spelled, first :: tail = spelled ++ rest ∧ Escapes c spelled rest := by
  by_cases hhex : isHexDigit first = true
  · obtain ⟨hvalue, hrest⟩ := escaped_of_isHexDigit tail hhex
    rw [hvalue, hrest, charOfCode_eq_iff]
    constructor
    · rintro ⟨hcode, hdrop⟩
      obtain ⟨htail, hdigits, hlength, hend⟩ := hexDigits_iff.1 ⟨rfl, rfl⟩
      have hds : IsCode (first :: (hexDigits tail 5).value) :=
        ⟨nofun, Nat.succ_le_succ hlength, List.forall_mem_cons.2 ⟨hhex, hdigits⟩⟩
      rcases dropBlank_rest_iff.1 hdrop with ⟨b, hb, hmid⟩ | ⟨hblank, hmid⟩
      · refine ⟨_, ?_, .closed hds hcode hb⟩
        rw [List.append_assoc, List.singleton_append, ← hmid]
        exact congrArg (first :: ·) htail
      · rw [← hmid]
        exact ⟨_, congrArg (first :: ·) htail, .bare hds hcode fun b hb =>
          ⟨hblank b hb, fun hlt => hend (Nat.lt_of_succ_lt_succ hlt) b hb⟩⟩
    · rintro ⟨spelled, happend, h⟩
      cases h with
      | plain hplain =>
          obtain ⟨rfl, -⟩ := List.cons_eq_cons.1 happend
          simp [hhex] at hplain
      | @closed ds _ b hds hcode hb =>
          obtain ⟨d, ds, rfl⟩ := List.exists_cons_of_ne_nil hds.ne_nil
          rw [List.append_assoc, List.cons_append] at happend
          obtain ⟨rfl, htail⟩ := List.cons_eq_cons.1 happend
          have hread : (hexDigits tail 5).value = ds ∧ (hexDigits tail 5).rest = b :: rest :=
            hexDigits_iff.2 ⟨htail, (List.forall_mem_cons.1 hds.digits).2,
              Nat.le_of_succ_le_succ hds.length_le, fun _ _ hhead => by
                cases hhead
                exact isHexDigit_of_isBlank hb⟩
          rw [hread.1, hread.2]
          exact ⟨hcode, dropBlank_rest_iff.2 (.inl ⟨b, hb, rfl⟩)⟩
      | bare hds hcode hend =>
          obtain ⟨d, ds, rfl⟩ := List.exists_cons_of_ne_nil hds.ne_nil
          obtain ⟨rfl, htail⟩ := List.cons_eq_cons.1 happend
          have hread : (hexDigits tail 5).value = ds ∧ (hexDigits tail 5).rest = rest :=
            hexDigits_iff.2 ⟨htail, (List.forall_mem_cons.1 hds.digits).2,
              Nat.le_of_succ_le_succ hds.length_le,
              fun hlt b hb => (hend b hb).2 (Nat.succ_lt_succ hlt)⟩
          rw [hread.1, hread.2]
          exact ⟨hcode, dropBlank_rest_iff.2 (.inr ⟨fun b hb => (hend b hb).1, rfl⟩)⟩
  · have hread : escaped first tail = .ofHead first first tail := by rw [escaped, if_neg hhex]
    rw [hread]
    constructor
    · rintro ⟨rfl, rfl⟩
      exact ⟨[first], rfl, .plain (Bool.not_eq_true _ ▸ hhex) hfirst⟩
    · rintro ⟨spelled, happend, h⟩
      cases h with
      | plain => exact (List.cons_eq_cons.1 happend)
      | closed hds | bare hds =>
          obtain ⟨d, ds, rfl⟩ := List.exists_cons_of_ne_nil hds.ne_nil
          obtain ⟨rfl, -⟩ := List.cons_eq_cons.1 happend
          exact absurd (hds.digits _ List.mem_cons_self) hhex

theorem startsEscape_iff :
    startsEscape cs = true ↔ ∃ tail, cs = '\\' :: tail ∧ tail.head? ≠ some '\n' := by
  fun_cases startsEscape cs with
  | case1 tail => simp
  | case2 cs h => simpa using fun tail heq => absurd heq (h tail)

theorem endsName_cons :
    EndsName (c :: cs) ↔ isNameChar c = false ∧ startsEscape (c :: cs) = false := by
  rw [EndsName, List.head?_cons, Option.any_some]

theorem not_endsName_iff :
    ¬ EndsName cs ↔ (cs.head?.any isNameChar || startsEscape cs) = true := by
  rw [EndsName, not_and_or, Bool.not_eq_false, Bool.not_eq_false, Bool.or_eq_true]

theorem startsEscape_of_isNameChar (h : isNameChar c = true) : startsEscape (c :: cs) = false := by
  refine Bool.eq_false_iff.2 fun hescape => ?_
  obtain ⟨_, heq, -⟩ := startsEscape_iff.1 hescape
  obtain ⟨rfl, -⟩ := List.cons_eq_cons.1 heq
  cases h

theorem startsEscape_eq (h : first ≠ '\n') : startsEscape ('\\' :: first :: tail) = true := by
  simp [startsEscape, h]

theorem yields_name_raw (h : isNameChar c = true) :
    Yields (name (c :: tail)) value rest ↔
      ∃ more, value = c :: more ∧ Yields (name tail) more rest := by
  rw [name, if_pos h]
  split
  · next hmore => simp [hmore]
  · next more hmore => simp [hmore, eq_comm (b := value), ← and_assoc]

theorem yields_name_escape (h : first ≠ '\n') :
    Yields (name ('\\' :: first :: tail)) value rest ↔
      ∃ more, value = (escaped first tail).value :: more ∧
        Yields (name (escaped first tail).rest) more rest := by
  rw [name, if_neg (by decide), if_pos (startsEscape_eq h), escape]
  simp only
  split
  · next hmore => simp [hmore]
  · next more hmore => simp [hmore, eq_comm (b := value)]

theorem yields_name_of_endsName (h : EndsName cs) :
    Yields (name cs) value rest ↔ value = [] ∧ cs = rest := by
  cases cs with
  | nil => simp [name, eq_comm]
  | cons c cs =>
      obtain ⟨hchar, hescape⟩ := endsName_cons.1 h
      rw [name, if_neg (by simp [hchar]), if_neg (by simp [hescape])]
      simp [eq_comm]

theorem not_yields_name_backslash : ¬ Yields (name ['\\']) value rest := by
  have hread : name ['\\'] = .error ⟨.invalidEscape, []⟩ := by
    rw [name, if_neg (by decide), if_pos (by decide), escape]
  rw [hread]
  exact yields_error _

-- Where a reader of names stops, goes on or reads an escape.
theorem endsName_or (cs : List Char) : EndsName cs ∨
    (∃ c tail, cs = c :: tail ∧ isNameChar c = true) ∨
      ∃ tail, cs = '\\' :: tail ∧ tail.head? ≠ some '\n' := by
  cases hescape : startsEscape cs with
  | true => exact .inr (.inr (startsEscape_iff.1 hescape))
  | false =>
      cases cs with
      | nil => exact .inl ⟨rfl, hescape⟩
      | cons c tail =>
          cases hchar : isNameChar c with
          | true => exact .inr (.inl ⟨c, tail, rfl, hchar⟩)
          | false => exact .inl (endsName_cons.2 ⟨hchar, hescape⟩)

theorem exists_nameSpelling (h : Yields (name cs) value rest) :
    ∃ spelled, cs = spelled ++ rest ∧ NameSpelling rest value spelled ∧ EndsName rest := by
  induction value generalizing cs with
  | nil =>
      obtain hend | ⟨c, tail, rfl, hc⟩ | ⟨tail, rfl, htail⟩ := endsName_or cs
      · obtain ⟨-, rfl⟩ := (yields_name_of_endsName hend).1 h
        exact ⟨[], rfl, .nil, hend⟩
      · obtain ⟨more, heq, -⟩ := (yields_name_raw hc).1 h
        cases heq
      · cases tail with
        | nil => exact absurd h not_yields_name_backslash
        | cons first tail =>
            obtain ⟨more, heq, -⟩ := (yields_name_escape (by simpa using htail)).1 h
            cases heq
  | cons v value ih =>
      obtain hend | ⟨c, tail, rfl, hc⟩ | ⟨tail, rfl, htail⟩ := endsName_or cs
      · obtain ⟨heq, -⟩ := (yields_name_of_endsName hend).1 h
        cases heq
      · obtain ⟨more, heq, hmore⟩ := (yields_name_raw hc).1 h
        obtain ⟨rfl, rfl⟩ := List.cons_eq_cons.1 heq
        obtain ⟨spelled, rfl, hspelled, hend⟩ := ih hmore
        exact ⟨_, rfl, .raw hc hspelled, hend⟩
      · cases tail with
        | nil => exact absurd h not_yields_name_backslash
        | cons first tail =>
            have hfirst : first ≠ '\n' := by simpa using htail
            obtain ⟨more, heq, hmore⟩ := (yields_name_escape hfirst).1 h
            obtain ⟨hv, rfl⟩ := List.cons_eq_cons.1 heq
            obtain ⟨spelled, hrest, hspelled, hend⟩ := ih hmore
            obtain ⟨text, happend, htext⟩ := (escaped_iff hfirst).1 ⟨hv.symm, hrest⟩
            refine ⟨'\\' :: (text ++ spelled), ?_, .escape htext hspelled, hend⟩
            rw [happend, List.cons_append, List.append_assoc]

theorem NameSpelling.yields (h : NameSpelling rest value spelled) (hend : EndsName rest) :
    Yields (name (spelled ++ rest)) value rest := by
  induction h with
  | nil => exact (yields_name_of_endsName hend).2 ⟨rfl, rfl⟩
  | raw hc _ ih => exact (yields_name_raw hc).2 ⟨_, rfl, ih⟩
  | @escape c value text spelled htext _ ih =>
      obtain ⟨first, tail, rfl, hfirst⟩ := htext.exists_cons
      have happend : '\\' :: (first :: tail ++ spelled) ++ rest =
          '\\' :: first :: (tail ++ (spelled ++ rest)) := by simp
      rw [happend, yields_name_escape hfirst]
      obtain ⟨hvalue, hrest⟩ := (escaped_iff hfirst).2 ⟨first :: tail, rfl, htext⟩
      exact ⟨value, congrArg (· :: value) hvalue.symm, hrest.symm ▸ ih⟩

-- A reader of names takes a spelling, and no text that goes on where a name could.
theorem yields_name_iff : Yields (name cs) value rest ↔
    ∃ spelled, cs = spelled ++ rest ∧ NameSpelling rest value spelled ∧ EndsName rest := by
  constructor
  · exact exists_nameSpelling
  · rintro ⟨spelled, rfl, h, hend⟩
    exact h.yields hend

theorem NameSpelling.congr (h : NameSpelling rest value spelled)
    (hhead : ∀ b ∈ rest'.head?, b ∈ rest.head? ∨ Text.isBlank b = false ∧ isHexDigit b = false) :
    NameSpelling rest' value spelled := by
  induction h with
  | nil => exact .nil
  | raw hc _ ih => exact .raw hc ih
  | escape htext _ ih => exact .escape (htext.congr fun b => mem_head?_append hhead) ih

theorem NameSpelling.value_ne_nil (h : NameSpelling rest value spelled) (hne : spelled ≠ []) :
    value ≠ [] := by
  cases h with
  | nil => exact absurd rfl hne
  | raw | escape => exact List.cons_ne_nil _ _

theorem OpensName.ne_nil (h : OpensName spelled) : spelled ≠ [] := by
  rintro rfl
  exact h

theorem NameSpelling.ne_nil_iff (h : NameSpelling rest value spelled) (hend : EndsName rest) :
    spelled ≠ [] ↔ ¬ EndsName (spelled ++ rest) := by
  cases h with
  | nil => simp [hend]
  | raw hc =>
      refine iff_of_true nofun fun hstop => ?_
      rw [List.cons_append, endsName_cons, hc] at hstop
      cases hstop.1
  | escape htext =>
      obtain ⟨first, tail, rfl, hfirst⟩ := htext.exists_cons
      refine iff_of_true nofun fun hstop => ?_
      simp [EndsName, startsEscape_eq hfirst] at hstop

theorem startsName_dash : startsName ('-' :: tail) =
    (tail.head?.any (fun c => isNameStart c || c == '-') || startsEscape tail) := rfl

theorem startsName_cons (h : c ≠ '-') :
    startsName (c :: tail) = (isNameStart c || startsEscape (c :: tail)) := by
  simp [startsName]

theorem opensName_cons (h : c ≠ '-') :
    OpensName (c :: tail) ↔ isNameStart c = true ∨ c = '\\' := by
  simp [OpensName, h]

theorem of_isNameChar_eq_false (h : isNameChar c = false) : isNameStart c = false ∧ c ≠ '-' := by
  simp only [isNameChar, Bool.or_eq_false_iff, beq_eq_false_iff_ne] at h
  exact ⟨h.1.1, h.2⟩

theorem ne_backslash_of_isNameChar (h : isNameChar c = true) : c ≠ '\\' := by
  rintro rfl
  cases h

theorem EndsName.startsName_eq (h : EndsName cs) : startsName cs = false := by
  cases cs with
  | nil => rfl
  | cons c cs =>
      obtain ⟨hchar, hescape⟩ := endsName_cons.1 h
      obtain ⟨hstart, hdash⟩ := of_isNameChar_eq_false hchar
      rw [startsName_cons hdash, hstart, hescape, Bool.or_false]

theorem NameSpelling.startsName_iff (h : NameSpelling rest value spelled)
    (hend : EndsName rest) : startsName (spelled ++ rest) = true ↔ OpensName spelled := by
  cases h with
  | nil => simp [hend.startsName_eq, OpensName]
  | escape htext =>
      obtain ⟨first, tail, rfl, hfirst⟩ := htext.exists_cons
      refine iff_of_true ?_ (.inr rfl)
      simp only [List.cons_append]
      rw [startsName_cons (by decide), startsEscape_eq hfirst, Bool.or_true]
  | @raw c value spelled hc h =>
      by_cases hdash : c = '-'
      · subst hdash
        rw [List.cons_append, startsName_dash]
        cases h with
        | nil =>
            rw [List.nil_append, hend.2, Bool.or_false]
            refine iff_of_false (fun hany => ?_) (by simp [OpensName, isNameStart])
            obtain ⟨d, hd, hstart⟩ := (Option.any_eq_true _ _).1 hany
            obtain ⟨hnot, hne⟩ :=
              of_isNameChar_eq_false ((Option.any_eq_false _ _).1 hend.1 d hd)
            simp [hnot, hne] at hstart
        | raw hd =>
            simp [OpensName, startsEscape_of_isNameChar hd, ne_backslash_of_isNameChar hd]
        | escape htext =>
            obtain ⟨first, tail, rfl, hfirst⟩ := htext.exists_cons
            simp [OpensName, startsEscape_eq hfirst]
      · rw [List.cons_append, startsName_cons hdash, opensName_cons hdash,
          startsEscape_of_isNameChar hc, Bool.or_false]
        simp [ne_backslash_of_isNameChar hc]

-- What a string goes on with is its quote at the latest, whatever stands behind that.
theorem mem_head?_append_quote (h : c ∈ (spelled ++ quote :: rest).head?) :
    c ∈ (spelled ++ quote :: rest').head? := by
  cases spelled with
  | nil => exact h
  | cons => exact h

theorem exists_quotedSpelling (h : Finds (quoted quote cs) value rest) :
    ∃ spelled, cs = spelled ++ quote :: rest ∧ QuotedSpelling quote value spelled := by
  fun_induction quoted quote cs generalizing value with
  | case1 => exact absurd h finds_none
  | case2 tail =>
      obtain ⟨rfl, rfl⟩ := finds_some.1 h
      exact ⟨[], rfl, .nil⟩
  | case3 => exact absurd h finds_none
  | case4 => exact absurd h finds_none
  | case5 tail _ _ ih =>
      obtain ⟨v, mid, hread, rfl, hmid⟩ := finds_map.1 h
      obtain rfl : mid = rest := hmid
      obtain ⟨spelled, rfl, hspelled⟩ := ih hread
      exact ⟨_, rfl, .join hspelled⟩
  | case6 => exact absurd h finds_none
  | case7 first tail hfirst more hread _ _ ih =>
      obtain ⟨hvalue, hmore⟩ := finds_some.1 h
      obtain ⟨spelled, hrest, hspelled⟩ := ih (by rw [hread]; exact finds_some.2 ⟨rfl, hmore⟩)
      obtain ⟨text, happend, htext⟩ := (escaped_iff hfirst).1 ⟨rfl, hrest⟩
      rw [← hvalue]
      refine ⟨'\\' :: (text ++ spelled), ?_, .escape (htext.congr ?_) hspelled⟩
      · rw [happend, List.cons_append, List.append_assoc]
      · exact fun b hb => .inl (mem_head?_append_quote hb)
  | case8 c tail hquote hline hescape ih =>
      obtain ⟨v, mid, hread, rfl, hmid⟩ := finds_map.1 h
      obtain rfl : mid = rest := hmid
      obtain ⟨spelled, rfl, hspelled⟩ := ih hread
      exact ⟨_, rfl, .raw hquote hescape hline hspelled⟩

theorem finds_quoted_escape (hquote : quote ≠ '\\') (h : first ≠ '\n') :
    Finds (quoted quote ('\\' :: first :: tail)) (c :: value) rest ↔
      (escaped first tail).value = c ∧
        Finds (quoted quote (escaped first tail).rest) value rest := by
  rw [quoted, if_neg hquote.symm, if_neg (by decide), if_pos rfl]
  simp only [if_neg h]
  split
  · next hmore => simp [hmore]
  · next more hmore => simp [hmore, and_assoc]

theorem QuotedSpelling.finds (hquote : quote ≠ '\\')
    (h : QuotedSpelling quote value spelled) :
    Finds (quoted quote (spelled ++ quote :: rest)) value rest := by
  induction h with
  | nil =>
      rw [List.nil_append, quoted.eq_def]
      simp
  | raw hne hescape hline _ ih =>
      rw [List.cons_append, quoted.eq_def]
      simp only [if_neg hne, if_neg hline, if_neg hescape]
      exact finds_map.2 ⟨_, _, ih, rfl, rfl⟩
  | @escape c value text spelled htext _ ih =>
      obtain ⟨first, tail, rfl, hfirst⟩ := htext.exists_cons
      have happend : '\\' :: (first :: tail ++ spelled) ++ quote :: rest =
          '\\' :: first :: (tail ++ (spelled ++ quote :: rest)) := by simp
      rw [happend, finds_quoted_escape hquote hfirst]
      obtain ⟨hvalue, hrest⟩ := (escaped_iff hfirst).2
        ⟨first :: tail, rfl, htext.congr fun b hb => .inl (mem_head?_append_quote hb)⟩
      exact ⟨hvalue, hrest.symm ▸ ih⟩
  | join _ ih =>
      rw [List.cons_append, List.cons_append, quoted, if_neg hquote.symm, if_neg (by decide),
        if_pos rfl]
      simp only
      exact finds_map.2 ⟨_, _, ih, rfl, rfl⟩

-- A reader of strings takes a spelling up to the first quote that is not part of it.
theorem finds_quoted_iff (hquote : quote ≠ '\\') : Finds (quoted quote cs) value rest ↔
    ∃ spelled, cs = spelled ++ quote :: rest ∧ QuotedSpelling quote value spelled := by
  constructor
  · exact exists_quotedSpelling
  · rintro ⟨spelled, rfl, h⟩
    exact h.finds hquote

end CssQuery.Token
