import CssQuery.Text.Ascii
import Mathlib.Data.String.Basic

namespace CssQuery.Text

theorem byteSize_eq_utf8Len (cs : List Char) : byteSize cs = String.utf8Len cs := by
  induction cs with
  | nil => rfl
  | cons c rest ih => rw [byteSize_cons, String.utf8Len_cons, ih, Nat.add_comm]

theorem byteSize_toList (text : String) : byteSize text.toList = text.utf8ByteSize := by
  rw [byteSize_eq_utf8Len, ← String.utf8ByteSize_ofList, String.ofList_toList]

theorem byteSize_pos {cs : List Char} (h : cs ≠ []) : 0 < byteSize cs := by
  cases cs with
  | nil => exact absurd rfl h
  | cons c rest => exact Nat.add_pos_left c.utf8Size_pos _

theorem eq_nil_of_byteSize {cs : List Char} (h : byteSize cs = 0) : cs = [] := by
  by_contra hne
  exact Nat.ne_of_gt (byteSize_pos hne) h

-- Two beginnings of a text are compared by their sizes.
theorem exists_append_of_byteSize {a b c d : List Char} (h : a ++ b = c ++ d)
    (hsize : byteSize a ≤ byteSize c) : ∃ e, c = a ++ e ∧ b = e ++ d := by
  obtain ⟨e, hc, hb⟩ | ⟨e, rfl, rfl⟩ := List.append_eq_append_iff.1 h
  · exact ⟨e, hc, hb⟩
  · rw [byteSize_append] at hsize
    obtain rfl := eq_nil_of_byteSize (show byteSize e = 0 by omega)
    exact ⟨[], by simp⟩

theorem append_inj_of_byteSize {a b c d : List Char} (h : a ++ b = c ++ d)
    (hsize : byteSize a = byteSize c) : a = c ∧ b = d := by
  obtain ⟨e, rfl, rfl⟩ := exists_append_of_byteSize h hsize.le
  rw [byteSize_append] at hsize
  obtain rfl := eq_nil_of_byteSize (Nat.left_eq_add.1 hsize)
  exact ⟨(List.append_nil a).symm, rfl⟩

-- An offset where a character of the text begins, or where the text ends.
def IsBoundary (text : String) (offset : Nat) : Prop := (⟨offset⟩ : String.Pos.Raw).IsValid text

-- The characters between two offsets.
def slice (text : String) (start stop : Nat) : List Char :=
  (String.Pos.Raw.extract text ⟨start⟩ ⟨stop⟩).toList

variable {text : String} {front middle back : List Char}

theorem isBoundary_of_append (h : text.toList = front ++ back) :
    IsBoundary text (byteSize front) := by
  refine String.Pos.Raw.isValid_iff_exists_append.2 ⟨.ofList front, .ofList back, ?_, ?_⟩
  · rw [← String.ofList_append, ← h, String.ofList_toList]
  · rw [byteSize_eq_utf8Len, String.rawEndPos_ofList]

theorem isBoundary_iff {offset : Nat} : IsBoundary text offset ↔
    ∃ front back, text.toList = front ++ back ∧ byteSize front = offset := by
  constructor
  · intro h
    obtain ⟨front, back, rfl, hsize⟩ := String.Pos.Raw.isValid_iff_exists_append.1 h
    refine ⟨front.toList, back.toList, String.toList_append, ?_⟩
    rw [byteSize_toList]
    exact (congrArg String.Pos.Raw.byteIdx hsize).symm
  · rintro ⟨front, back, htext, rfl⟩
    exact isBoundary_of_append htext

theorem slice_of_append (h : text.toList = front ++ middle ++ back) :
    slice text (byteSize front) (byteSize front + byteSize middle) = middle := by
  have htext : text = .ofList (front ++ middle ++ back) := by rw [← h, String.ofList_toList]
  rw [slice, byteSize_eq_utf8Len, byteSize_eq_utf8Len, htext, String.extract_of_valid,
    String.toList_ofList]

end CssQuery.Text
