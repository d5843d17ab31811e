import CssQuery.Text.Ascii
import Mathlib.Data.String.Basic

namespace CssQuery.Text

variable {c : Char} {cs ds : List Char} {before after : List UInt8} {byte : UInt8}

@[simp] theorem bytes_nil : bytes [] = [] := rfl

@[simp] theorem bytes_cons : bytes (c :: cs) = String.utf8EncodeChar c ++ bytes cs :=
  List.flatMap_cons

@[simp] theorem bytes_append : bytes (cs ++ ds) = bytes cs ++ bytes ds := List.flatMap_append

-- The first byte of a character is told from the bytes that follow it.
theorem encodeChar_eq (c : Char) : ∃ first more, String.utf8EncodeChar c = first :: more ∧
    first.IsUTF8FirstByte ∧ ∀ byte ∈ more, ¬ byte.IsUTF8FirstByte := by
  have hpos : 0 < (String.utf8EncodeChar c).length := by
    rw [String.length_utf8EncodeChar]
    exact c.utf8Size_pos
  obtain ⟨first, more, hform⟩ := List.exists_cons_of_length_pos hpos
  have hbegins (i : Nat) (hi : i < (first :: more).length) :
      (first :: more)[i].IsUTF8FirstByte ↔ i = 0 := by
    have hi' : i < (String.utf8EncodeChar c).length := hform ▸ hi
    have hiff : (String.utf8EncodeChar c)[i].IsUTF8FirstByte ↔ i = 0 :=
      UInt8.isUTF8FirstByte_getElem_utf8EncodeChar
    simpa only [hform] using hiff
  refine ⟨first, more, hform, (hbegins 0 (Nat.zero_lt_succ _)).2 rfl, fun byte hbyte h => ?_⟩
  obtain ⟨i, hi, rfl⟩ := List.getElem_of_mem hbyte
  exact absurd ((hbegins (i + 1) (Nat.succ_lt_succ hi)).1 h) (Nat.succ_ne_zero i)

theorem exists_bytes_eq_cons (h : cs ≠ []) :
    ∃ first more, bytes cs = first :: more ∧ first.IsUTF8FirstByte := by
  cases cs with
  | nil => exact absurd rfl h
  | cons c rest =>
      obtain ⟨first, more, hform, hfirst, -⟩ := encodeChar_eq c
      exact ⟨first, more ++ bytes rest, by rw [bytes_cons, hform, List.cons_append], hfirst⟩

-- Where a byte begins a character, the text comes apart between two characters.
theorem exists_split_at_first (h : bytes cs = before ++ byte :: after)
    (hbyte : byte.IsUTF8FirstByte) :
    ∃ front back, cs = front ++ back ∧ bytes front = before ∧ bytes back = byte :: after := by
  induction cs generalizing before with
  | nil => simp at h
  | cons c rest ih =>
      rw [bytes_cons] at h
      obtain ⟨before', hbefore, hrest⟩ | ⟨tail, hform, hafter⟩ := List.append_eq_append_iff.1 h
      · obtain ⟨front, back, rfl, rfl, hback⟩ := ih hrest
        exact ⟨c :: front, back, rfl, by rw [bytes_cons, hbefore], hback⟩
      · cases tail with
        | nil =>
            rw [List.append_nil] at hform
            rw [List.nil_append] at hafter
            exact ⟨[c], rest, rfl, by rw [bytes_cons, bytes_nil, List.append_nil, hform],
              hafter.symm⟩
        | cons first tail =>
            obtain ⟨rfl, rfl⟩ := List.cons.inj hafter
            obtain rfl : before = [] := by
              obtain ⟨first', more, hform', -, hmore⟩ := encodeChar_eq c
              rw [hform'] at hform
              cases before with
              | nil => rfl
              | cons other before =>
                  obtain ⟨-, rfl⟩ := List.cons.inj hform
                  exact absurd hbyte (hmore _ (List.mem_append_right _ (.head _)))
            exact ⟨[], c :: rest, rfl, rfl, by rw [bytes_cons, hform]; rfl⟩

theorem isPrefix_of_bytes (h : bytes cs ++ after = bytes ds) : cs <+: ds := by
  refine List.isPrefix_of_utf8Encode_append_eq_utf8Encode after.toByteArray ?_
  rw [List.utf8Encode, ← List.toByteArray_append]
  exact congrArg List.toByteArray h

theorem bytes_prefix_iff : bytes cs <+: bytes ds ↔ cs <+: ds := by
  constructor
  · rintro ⟨after, h⟩
    exact isPrefix_of_bytes h
  · rintro ⟨more, rfl⟩
    exact ⟨bytes more, bytes_append.symm⟩

theorem bytes_inj : bytes cs = bytes ds ↔ cs = ds := by
  refine ⟨fun h => ?_, congrArg bytes⟩
  obtain ⟨more, rfl⟩ := isPrefix_of_bytes ((List.append_nil _).trans h)
  rw [bytes_append, List.self_eq_append_right] at h
  rw [List.self_eq_append_right]
  by_contra hmore
  exact Nat.ne_of_gt (length_bytes_pos hmore) (congrArg List.length h)

-- A text that is not empty is found among the bytes only where its characters are.
theorem exists_split_of_bytes (hds : ds ≠ []) (h : bytes cs = before ++ (bytes ds ++ after)) :
    ∃ front back, cs = front ++ (ds ++ back) ∧ bytes front = before ∧ bytes back = after := by
  obtain ⟨first, more, hform, hfirst⟩ := exists_bytes_eq_cons hds
  rw [hform, List.cons_append] at h
  obtain ⟨front, tail, rfl, rfl, htail⟩ := exists_split_at_first h hfirst
  rw [← List.cons_append, ← hform] at htail
  obtain ⟨back, rfl⟩ := isPrefix_of_bytes htail.symm
  rw [bytes_append, List.append_right_inj] at htail
  exact ⟨front, back, rfl, rfl, htail⟩

theorem bytes_infix_iff (hds : ds ≠ []) : bytes ds <:+: bytes cs ↔ ds <:+: cs := by
  constructor
  · rintro ⟨before, after, h⟩
    rw [List.append_assoc] at h
    obtain ⟨front, back, rfl, -, -⟩ := exists_split_of_bytes hds h.symm
    exact ⟨front, back, List.append_assoc ..⟩
  · rintro ⟨front, back, rfl⟩
    exact ⟨bytes front, bytes back, by rw [bytes_append, bytes_append]⟩

theorem bytes_suffix_iff (hds : ds ≠ []) : bytes ds <:+ bytes cs ↔ ds <:+ cs := by
  constructor
  · rintro ⟨before, h⟩
    rw [← List.append_nil (bytes ds)] at h
    obtain ⟨front, back, rfl, -, hback⟩ := exists_split_of_bytes hds h.symm
    obtain rfl : back = [] := bytes_inj.1 (hback.trans bytes_nil.symm)
    exact ⟨front, by rw [List.append_nil]⟩
  · rintro ⟨front, rfl⟩
    exact ⟨bytes front, bytes_append.symm⟩

theorem foldByte_of_le (h : 0x80 ≤ byte) : foldByte byte = byte := by
  refine if_neg fun hcapital => ?_
  exact absurd (UInt8.le_trans h hcapital.2) (by decide)

theorem toLower_eq_of_long (h : ¬ c.val ≤ 127) : c.toLower = c :=
  dif_neg fun hcapital => h (UInt32.le_trans hcapital.2 (by decide))

-- What folding does to an ASCII character is found by trying all of them.
theorem foldable_cases {P : Char → Prop} (ascii : ∀ code : Fin 128, P (.ofNat code))
    (long : ∀ c : Char, ¬ c.val ≤ 127 → P c) (c : Char) : P c := by
  by_cases h : c.val ≤ 127
  · have hcode : c.toNat < 128 := Nat.lt_succ_of_le (UInt32.le_iff_toNat_le.1 h)
    have hc := ascii ⟨c.toNat, hcode⟩
    rwa [Char.ofNat_toNat] at hc
  · exact long c h

theorem isBlank_toLower (c : Char) : isBlank c.toLower = isBlank c := by
  induction c using foldable_cases with
  | ascii code =>
      revert code
      decide
  | long c hlong => rw [toLower_eq_of_long hlong]

theorem toLower_toLower (c : Char) : c.toLower.toLower = c.toLower := by
  induction c using foldable_cases with
  | ascii code =>
      revert code
      decide
  | long c hlong => rw [toLower_eq_of_long hlong, toLower_eq_of_long hlong]

theorem fold_fold (text : String) : fold (fold text) = fold text := by
  simp only [fold, String.toList_ofList, List.map_map]
  exact congrArg String.ofList (List.map_congr_left fun c _ => toLower_toLower c)

theorem toLower_eq_self (h : c.isUpper = false) : c.toLower = c :=
  dif_neg (of_decide_eq_false h)

theorem fold_eq_self {text : String} (h : ∀ c ∈ text.toList, c.isUpper = false) :
    fold text = text := by
  have hmap : text.toList.map Char.toLower = text.toList.map id :=
    List.map_congr_left fun c hc => toLower_eq_self (h c hc)
  rw [fold, hmap, List.map_id, String.ofList_toList]

theorem sameFolded_iff {a b : String} : sameFolded a b = true ↔ fold a = fold b := beq_iff_eq

theorem le_of_mem_encodeChar (h : ¬ c.val ≤ 127) :
    ∀ byte ∈ String.utf8EncodeChar c, 0x80 ≤ byte := by
  have hlong : ¬ c.val.toNat ≤ 127 := h
  have hhigh (n : Nat) (hlow : 0x80 ≤ n) (hbyte : n < 0x100) : 0x80 ≤ UInt8.ofNat n := by
    rw [UInt8.le_iff_toNat_le, UInt8.toNat_ofNat_of_lt' hbyte]
    exact hlow
  have hmore (n : Nat) : 0x80 ≤ UInt8.ofNat (n % 64 + 128) := hhigh _ (by omega) (by omega)
  simp only [String.utf8EncodeChar, if_neg hlong]
  split
  · simp only [List.forall_mem_cons]
    exact ⟨hhigh _ (by omega) (by omega), hmore _, nofun⟩
  split
  · simp only [List.forall_mem_cons]
    exact ⟨hhigh _ (by omega) (by omega), hmore _, hmore _, nofun⟩
  · simp only [List.forall_mem_cons]
    exact ⟨hhigh _ (by omega) (by omega), hmore _, hmore _, hmore _, nofun⟩

theorem map_foldByte_encodeChar (c : Char) :
    (String.utf8EncodeChar c).map foldByte = String.utf8EncodeChar c.toLower := by
  induction c using foldable_cases with
  | ascii code =>
      revert code
      decide
  | long c hlong =>
      have hsame : ∀ byte ∈ String.utf8EncodeChar c, foldByte byte = byte :=
        fun byte hbyte => foldByte_of_le (le_of_mem_encodeChar hlong byte hbyte)
      rw [toLower_eq_of_long hlong, List.map_congr_left hsame, List.map_id']

-- Folding the bytes of a text is folding its characters.
theorem map_foldByte_bytes : (bytes cs).map foldByte = bytes (cs.map Char.toLower) := by
  induction cs with
  | nil => rfl
  | cons c rest ih =>
      rw [bytes_cons, List.map_append, map_foldByte_encodeChar, ih, List.map_cons, bytes_cons]

end CssQuery.Text
