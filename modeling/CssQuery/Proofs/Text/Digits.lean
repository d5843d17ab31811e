import CssQuery.Text.Ascii
import Mathlib.Algebra.Group.Nat.Defs

namespace CssQuery.Text

variable {c d : Char} {cs : List Char}

theorem ne_of_isDigit (hc : c.isDigit = true) (hd : d.isDigit = false) : c ≠ d := by
  rintro rfl
  rw [hc] at hd
  cases hd

theorem isUpper_of_isDigit (h : c.isDigit = true) : c.isUpper = false := by
  refine decide_eq_false fun hupper => ?_
  have hlow : 'A'.toNat ≤ c.toNat := UInt32.le_iff_toNat_le.1 hupper.1
  exact absurd (Nat.le_trans hlow (Char.isDigit_iff_toNat.1 h).2) (by decide)

theorem isLower_of_isDigit (h : c.isDigit = true) : c.isLower = false := by
  refine Bool.eq_false_iff.2 fun hlower => ?_
  have hlow : 'a'.toNat ≤ c.toNat :=
    UInt32.le_iff_toNat_le.1 (of_decide_eq_true (Bool.and_eq_true_iff.1 hlower).1)
  exact absurd (Nat.le_trans hlow (Char.isDigit_iff_toNat.1 h).2) (by decide)

theorem isBlank_of_isDigit (h : c.isDigit = true) : isBlank c = false := by
  have hne (d : Char) (hd : d.isDigit = false) : c ≠ d := ne_of_isDigit h hd
  simp [isBlank, hne ' ' rfl, hne '\t' rfl, hne '\n' rfl, hne '\r' rfl, hne '\x0c' rfl]

theorem exists_of_isDigits (h : isDigits cs = true) :
    ∃ d ds, cs = d :: ds ∧ d.isDigit = true ∧ ∀ c ∈ ds, c.isDigit = true := by
  cases cs with
  | nil => cases h
  | cons d ds =>
      have hall : d.isDigit = true ∧ ∀ c ∈ ds, c.isDigit = true := by
        simpa [isDigits] using h
      exact ⟨d, ds, rfl, hall⟩

-- A number in so many hex digits.
def hexText : Nat → Nat → List Char
  | 0, _ => []
  | width + 1, n => hexText width (n / 16) ++ [Nat.digitChar (n % 16)]

theorem length_hexText (width n : Nat) : (hexText width n).length = width := by
  induction width generalizing n with
  | zero => rfl
  | succ width ih => simp [hexText, ih]

theorem digitChar_plain : ∀ d < 16, isHexDigit (Nat.digitChar d) = true ∧
    hexDigit (Nat.digitChar d) = d := by
  decide

theorem isHexDigit_of_mem {width n : Nat} (h : c ∈ hexText width n) :
    isHexDigit c = true := by
  induction width generalizing n with
  | zero => cases h
  | succ width ih =>
      obtain h | h := List.mem_append.1 h
      · exact ih h
      · obtain rfl := List.mem_singleton.1 h
        exact (digitChar_plain _ (Nat.mod_lt _ (by decide))).1

theorem hexadecimal_hexText (width n : Nat) : hexadecimal (hexText width n) = n % 16 ^ width := by
  induction width generalizing n with
  | zero => simp [hexText, hexadecimal, Nat.mod_one]
  | succ width ih =>
      have hdigit := (digitChar_plain (n % 16) (Nat.mod_lt _ (by decide))).2
      have hfold : hexadecimal (hexText (width + 1) n) =
          16 * hexadecimal (hexText width (n / 16)) + n % 16 := by
        rw [hexText, hexadecimal, List.foldl_append, List.foldl_cons, List.foldl_nil, hdigit]
        rfl
      rw [hfold, ih, Nat.pow_succ, Nat.mul_comm (16 ^ width) 16, Nat.mod_mul]
      omega

end CssQuery.Text
