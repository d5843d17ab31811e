import CssQuery.Proofs.Lists
import CssQuery.Proofs.Text.Utf8
import CssQuery.Selector.Attribute
import Mathlib.Data.List.Infix
import Mathlib.Data.List.TakeWhile
import Mathlib.Data.Option.Basic

namespace CssQuery

variable {letterCase : LetterCase} {cs ds hay needle v s w : List Char}
  {found sought window before after bs : List UInt8} {size : Nat}

-- A piece of a text without blanks, with blanks or the ends of the text around it.
def IsWord (w s : List Char) : Prop :=
  (∀ c ∈ w, Text.isBlank c = false) ∧ ∃ before after, s = before ++ (w ++ after) ∧
    (∀ c ∈ before.getLast?, Text.isBlank c = true) ∧ ∀ c ∈ after.head?, Text.isBlank c = true

-- What a comparison says of two texts, character by character.
def Comparison.Says (comparison : Comparison) (v s : List Char) : Prop :=
  match comparison with
  | equals => s = v
  | includes => v ≠ [] ∧ (∀ c ∈ v, Text.isBlank c = false) ∧ IsWord v s
  | dashMatch => s = v ∨ v ++ ['-'] <+: s
  | startsWith => v ≠ [] ∧ v <+: s
  | endsWith => v ≠ [] ∧ v <:+ s
  | contains => v ≠ [] ∧ v <:+: s

-- A character as it is compared.
def LetterCase.char (letterCase : LetterCase) (c : Char) : Char :=
  match letterCase with
  | exact => c
  | folded => c.toLower

def AttributeTest.Says (test : AttributeTest) (letterCase : LetterCase) (actual : String) : Prop :=
  match test with
  | .exists => True
  | .compare comparison value =>
      comparison.Says (value.toList.map letterCase.char) (actual.toList.map letterCase.char)

theorem words_eq_filter (s : List Char) :
    Text.words s = (s.splitOnP Text.isBlank).filter (!·.isEmpty) := by
  induction s using Text.words.induct with
  | case1 => rw [Text.words, List.splitOnP_nil]; rfl
  | case2 c rest hblank ih =>
      rw [Text.words, if_pos hblank, ih, List.splitOnP_cons_eq_if_modifyHead, if_pos hblank]
      rfl
  | case3 c rest hc ih =>
      have hblank : Text.isBlank c = false := Bool.eq_false_iff.2 hc
      have hword : ∀ x ∈ c :: rest.takeWhile (!Text.isBlank ·), Text.isBlank x = false := by
        refine List.forall_mem_cons.2 ⟨hblank, fun x hx => ?_⟩
        simpa using List.mem_takeWhile_imp hx
      have hsplit : c :: rest = (c :: rest.takeWhile (!Text.isBlank ·)) ++
          rest.dropWhile (!Text.isBlank ·) := by
        rw [List.cons_append, List.takeWhile_append_dropWhile]
      rw [Text.words, if_neg hc, ih, hsplit]
      cases hrest : rest.dropWhile (!Text.isBlank ·) with
      | nil =>
          rw [List.append_nil, List.splitOnP_eq_singleton hword]
          rfl
      | cons sep more =>
          have hsep : Text.isBlank sep = true := by
            simpa [hrest] using List.head?_dropWhile_not (!Text.isBlank ·) rest
          rw [List.splitOnP_append_cons_of_forall_mem hword sep hsep,
            List.splitOnP_cons_eq_if_modifyHead, if_pos hsep]
          rfl

-- The words of a text are its pieces between blanks that are not empty.
theorem mem_words_iff : w ∈ Text.words s ↔ w ≠ [] ∧ IsWord w s := by
  rw [words_eq_filter, List.mem_filter, mem_splitOnP_iff, and_comm, Bool.not_eq_true',
    List.isEmpty_eq_false_iff]
  rfl

theorem occursIn_iff : occursIn needle hay = true ↔ needle <:+: hay := by
  induction hay with
  | nil => rw [occursIn, List.isEmpty_iff, List.infix_nil]
  | cons c hay ih =>
      rw [occursIn, Bool.or_eq_true, List.isPrefixOf_iff_prefix, ih, List.infix_cons_iff]

theorem mem_windows_iff (hsize : 0 < size) :
    window ∈ windows size hsize bs ↔ window.length = size ∧ window <:+: bs := by
  induction bs with
  | nil =>
      rw [windows, List.infix_nil]
      refine ⟨nofun, ?_⟩
      rintro ⟨rfl, rfl⟩
      exact absurd hsize (Nat.lt_irrefl 0)
  | cons byte bs ih =>
      rw [windows, List.infix_cons_iff]
      split
      case isTrue hroom =>
        rw [List.mem_cons, ih, and_or_left]
        refine or_congr_left ⟨?_, ?_⟩
        · rintro rfl
          exact ⟨List.length_take_of_le hroom, List.take_prefix ..⟩
        · rintro ⟨rfl, hw⟩
          exact List.prefix_iff_eq_take.1 hw
      case isFalse hroom =>
        refine ⟨nofun, ?_⟩
        rintro ⟨rfl, hw⟩
        have hlength : window.length ≤ (byte :: bs).length := hw.elim (·.length_le) fun hw =>
          Nat.le_succ_of_le hw.length_le
        exact absurd hlength hroom

namespace LetterCase

-- A byte as it is compared.
def byte (letterCase : LetterCase) (byte : UInt8) : UInt8 :=
  match letterCase with
  | exact => byte
  | folded => Text.foldByte byte

theorem char_exact : exact.char = id := rfl

theorem byte_exact : exact.byte = id := rfl

theorem same_iff : letterCase.same found sought = true ↔
    found.map letterCase.byte = sought.map letterCase.byte := by
  cases letterCase with
  | exact =>
      rw [byte_exact, List.map_id, List.map_id]
      exact beq_iff_eq
  | folded => exact beq_iff_eq

theorem map_byte_bytes :
    (Text.bytes cs).map letterCase.byte = Text.bytes (cs.map letterCase.char) := by
  cases letterCase with
  | exact => rw [byte_exact, char_exact, List.map_id, List.map_id]
  | folded => exact Text.map_foldByte_bytes

theorem same_bytes_iff : letterCase.same (Text.bytes cs) (Text.bytes ds) = true ↔
    cs.map letterCase.char = ds.map letterCase.char := by
  rw [same_iff, map_byte_bytes, map_byte_bytes, Text.bytes_inj]

theorem isBlank_char (c : Char) : Text.isBlank (letterCase.char c) = Text.isBlank c := by
  cases letterCase with
  | exact => rfl
  | folded => exact Text.isBlank_toLower c

-- No other byte is folded to a hyphen.
theorem byte_eq_hyphen_iff (byte : UInt8) :
    letterCase.byte byte = hyphenByte ↔ byte = hyphenByte := by
  cases letterCase with
  | exact => rfl
  | folded =>
      change Text.foldByte byte = hyphenByte ↔ byte = hyphenByte
      unfold Text.foldByte
      split
      case isTrue hcapital =>
        have hlow := UInt8.le_iff_toNat_le.1 hcapital.1
        have hhigh := UInt8.le_iff_toNat_le.1 hcapital.2
        simp only [← UInt8.toNat_inj, UInt8.toNat_add, hyphenByte, UInt8.reduceToNat] at *
        omega
      case isFalse => rfl

theorem startsWith_iff : letterCase.startsWith sought found = true ↔
    sought.map letterCase.byte <+: found.map letterCase.byte := by
  rw [startsWith, Bool.and_eq_true, decide_eq_true_iff, same_iff, List.map_take]
  constructor
  · rintro ⟨-, hsame⟩
    exact hsame ▸ List.take_prefix ..
  · intro h
    have hlength := h.length_le
    rw [List.prefix_iff_eq_take, List.length_map] at h
    rw [List.length_map, List.length_map] at hlength
    exact ⟨hlength, h.symm⟩

theorem endsWith_iff : letterCase.endsWith sought found = true ↔
    sought.map letterCase.byte <:+ found.map letterCase.byte := by
  rw [endsWith, Bool.and_eq_true, decide_eq_true_iff, same_iff, List.map_drop]
  constructor
  · rintro ⟨-, hsame⟩
    exact hsame ▸ List.drop_suffix ..
  · intro h
    have hlength := h.length_le
    rw [List.suffix_iff_eq_drop, List.length_map, List.length_map] at h
    rw [List.length_map, List.length_map] at hlength
    exact ⟨hlength, h.symm⟩

theorem contains_iff (hneedle : needle ≠ []) :
    letterCase.contains needle hneedle hay = true ↔
      needle.map letterCase.char <:+: hay.map letterCase.char := by
  cases letterCase with
  | exact =>
      rw [char_exact, List.map_id, List.map_id]
      exact occursIn_iff
  | folded =>
      have hlowered : needle.map folded.char ≠ [] := List.map_eq_nil_iff.not.2 hneedle
      rw [contains, List.any_eq_true, ← Text.bytes_infix_iff hlowered, ← map_byte_bytes,
        ← map_byte_bytes, List.infix_map_iff]
      refine exists_congr fun window => ?_
      rw [mem_windows_iff, same_iff, and_assoc, eq_comm (a := window.map _)]
      exact and_iff_right_of_imp fun h => length_eq_of_map h.2.symm

theorem dashMatches_iff : letterCase.dashMatches sought found = true ↔
    found.map letterCase.byte = sought.map letterCase.byte ∨
      sought.map letterCase.byte ++ [hyphenByte] <+: found.map letterCase.byte := by
  rw [dashMatches, Bool.or_eq_true, same_iff, append_singleton_prefix_iff, List.length_map,
    List.getElem?_map]
  refine or_congr_right ?_
  split
  case isTrue hroom =>
    rw [Bool.and_eq_true, beq_iff_eq, startsWith_iff, List.getElem?_eq_getElem hroom,
      Option.map_some, Option.some_inj, byte_eq_hyphen_iff, List.get_eq_getElem]
  case isFalse hroom =>
    rw [List.getElem?_eq_none (Nat.le_of_not_lt hroom)]
    exact ⟨nofun, nofun⟩

end LetterCase

theorem forall_isBlank_map : (∀ c ∈ cs.map letterCase.char, Text.isBlank c = false) ↔
    ∀ c ∈ cs, Text.isBlank c = false := by
  simp only [List.forall_mem_map, LetterCase.isBlank_char]

theorem isBlank_neighbour {beside : Option Char} :
    (∀ c ∈ beside.map letterCase.char, Text.isBlank c = true) ↔
      ∀ c ∈ beside, Text.isBlank c = true := by
  simp only [Option.forall_mem_map, LetterCase.isBlank_char]

-- The words of a text as it is compared are its words, as they are compared.
theorem isWord_map_iff : IsWord w (s.map letterCase.char) ↔
    ∃ word, IsWord word s ∧ word.map letterCase.char = w := by
  constructor
  · rintro ⟨hw, before, after, hs, hbefore, hafter⟩
    obtain ⟨before, rest, rfl, rfl, hrest⟩ := List.map_eq_append_iff.1 hs
    obtain ⟨word, after, rfl, rfl, rfl⟩ := List.map_eq_append_iff.1 hrest
    exact ⟨word, ⟨forall_isBlank_map.1 hw, before, after, rfl,
      isBlank_neighbour.1 (List.getLast?_map ▸ hbefore),
      isBlank_neighbour.1 (List.head?_map ▸ hafter)⟩, rfl⟩
  · rintro ⟨word, ⟨hword, before, after, rfl, hbefore, hafter⟩, rfl⟩
    exact ⟨forall_isBlank_map.2 hword, before.map _, after.map _,
      by rw [List.map_append, List.map_append], List.getLast?_map ▸ isBlank_neighbour.2 hbefore,
      List.head?_map ▸ isBlank_neighbour.2 hafter⟩

theorem Comparison.holds_iff (comparison : Comparison) (value actual : String) :
    comparison.holds letterCase value actual = true ↔
      comparison.Says (value.toList.map letterCase.char) (actual.toList.map letterCase.char) := by
  have hempty : (!value.isEmpty) = true ↔ value.toList.map letterCase.char ≠ [] := by
    rw [Bool.not_eq_true', ← Bool.not_eq_true, String.isEmpty_iff, ne_eq, List.map_eq_nil_iff,
      String.toList_eq_nil_iff]
  cases comparison with
  | equals => exact LetterCase.same_bytes_iff
  | includes =>
      have hblanks : (!value.toList.any Text.isBlank) = true ↔
          ∀ c ∈ value.toList.map letterCase.char, Text.isBlank c = false := by
        rw [forall_isBlank_map, Bool.not_eq_true', List.any_eq_false]
        simp only [Bool.not_eq_true]
      have hwords : ((actual.toList.splitOnP Text.isBlank).any fun word =>
          letterCase.same (Text.bytes word) (Text.bytes value.toList)) = true ↔
            IsWord (value.toList.map letterCase.char) (actual.toList.map letterCase.char) := by
        rw [List.any_eq_true, isWord_map_iff]
        exact exists_congr fun word => and_congr mem_splitOnP_iff LetterCase.same_bytes_iff
      rw [holds, Bool.and_eq_true, Bool.and_eq_true, hempty, hblanks, hwords, and_assoc]
      rfl
  | dashMatch =>
      have hhyphen : Text.bytes ['-'] = [hyphenByte] := rfl
      rw [holds, LetterCase.dashMatches_iff, LetterCase.map_byte_bytes, LetterCase.map_byte_bytes,
        ← hhyphen, ← Text.bytes_append, Text.bytes_prefix_iff, Text.bytes_inj]
      rfl
  | startsWith =>
      rw [holds, Bool.and_eq_true, hempty, LetterCase.startsWith_iff, LetterCase.map_byte_bytes,
        LetterCase.map_byte_bytes, Text.bytes_prefix_iff]
      rfl
  | endsWith =>
      rw [holds, Bool.and_eq_true, hempty, LetterCase.endsWith_iff, LetterCase.map_byte_bytes,
        LetterCase.map_byte_bytes]
      exact and_congr_right Text.bytes_suffix_iff
  | contains =>
      simp only [holds]
      split
      case isTrue hnil => exact ⟨nofun, fun h => absurd (List.map_eq_nil_iff.2 hnil) h.1⟩
      case isFalse hne =>
        rw [LetterCase.contains_iff]
        exact (and_iff_right (List.map_eq_nil_iff.not.2 hne)).symm

-- Bytes that compare as those of a text that is not empty are whole characters.
theorem exists_split_of_same (hne : cs ≠ [])
    (hbytes : Text.bytes s = before ++ (found ++ after))
    (hsame : letterCase.same found (Text.bytes cs) = true) :
    ∃ front middle back, s = front ++ (middle ++ back) ∧ Text.bytes front = before ∧
      Text.bytes middle = found ∧ Text.bytes back = after := by
  have hlowered := congrArg (List.map letterCase.byte) hbytes
  rw [LetterCase.same_iff, LetterCase.map_byte_bytes] at hsame
  rw [LetterCase.map_byte_bytes, List.map_append, List.map_append, hsame] at hlowered
  obtain ⟨front, back, hs, hfront, hback⟩ :=
    Text.exists_split_of_bytes (List.map_eq_nil_iff.not.2 hne) hlowered
  obtain ⟨front, rest, rfl, rfl, hrest⟩ := List.map_eq_append_iff.1 hs
  obtain ⟨middle, back, rfl, hmiddle, rfl⟩ := List.map_eq_append_iff.1 hrest
  rw [← hmiddle, ← LetterCase.map_byte_bytes] at hsame
  rw [← LetterCase.map_byte_bytes] at hfront
  rw [Text.bytes_append, Text.bytes_append] at hbytes
  obtain ⟨hfront, hrest⟩ := List.append_inj hbytes (length_eq_of_map hfront)
  obtain ⟨hmiddle, hback⟩ := List.append_inj hrest (length_eq_of_map hsame.symm)
  exact ⟨front, middle, back, rfl, hfront, hmiddle, hback⟩

theorem AttributeTest.holds_iff (test : AttributeTest) (actual : String) :
    test.holds letterCase actual = true ↔ test.Says letterCase actual := by
  cases test with
  | «exists» => exact iff_of_true rfl trivial
  | compare comparison value => exact comparison.holds_iff value actual

theorem AttributeTest.holds_iff_says (letterCase : LetterCase) (actual : String) :
    (∀ test : AttributeTest, test.holds letterCase actual = true ↔ test.Says letterCase actual) ∧
      ∀ value before found after, value ≠ [] →
        Text.bytes actual.toList = before ++ (found ++ after) →
        letterCase.same found (Text.bytes value) = true →
        ∃ front middle back, actual.toList = front ++ (middle ++ back) ∧
          Text.bytes front = before ∧ Text.bytes middle = found ∧ Text.bytes back = after :=
  ⟨fun test => test.holds_iff actual, fun _ _ _ _ hne hbytes hsame =>
    exists_split_of_same hne hbytes hsame⟩

theorem AttributeTest.holds_iff_says_accented :
    ['é', 'B'] ≠ [] ∧ Text.bytes "aéb-c".toList = [0x61] ++ ([0xc3, 0xa9, 0x62] ++ [0x2d, 0x63]) ∧
      LetterCase.folded.same [0xc3, 0xa9, 0x62] (Text.bytes ['é', 'B']) = true ∧
      ∃ front middle back, "aéb-c".toList = front ++ (middle ++ back) ∧
        Text.bytes front = [0x61] ∧ Text.bytes middle = [0xc3, 0xa9, 0x62] ∧
        Text.bytes back = [0x2d, 0x63] := by
  have hne : ['é', 'B'] ≠ [] := List.cons_ne_nil _ _
  have hbytes : Text.bytes "aéb-c".toList = [0x61] ++ ([0xc3, 0xa9, 0x62] ++ [0x2d, 0x63]) := by
    decide
  have hsame : LetterCase.folded.same [0xc3, 0xa9, 0x62] (Text.bytes ['é', 'B']) = true := by
    decide
  exact ⟨hne, hbytes, hsame,
    (AttributeTest.holds_iff_says .folded "aéb-c").2 _ _ _ _ hne hbytes hsame⟩

end CssQuery
