import CssQuery.Selector.Formula
import Mathlib.Algebra.Group.Basic
import Mathlib.Algebra.Group.Nat.Defs
import Mathlib.Algebra.Ring.Int.Defs

namespace CssQuery.Formula

variable {f : Formula} {position : Nat} {n step distance : Int} {a b : Int64}

-- A number that a 64-bit word holds.
def IsWord (n : Int) : Prop := Int64.minValue.toInt ≤ n ∧ n ≤ Int64.maxValue.toInt

instance : Decidable (IsWord n) := inferInstanceAs (Decidable (_ ∧ _))

-- What an operation on words comes to, if a word holds the exact result.
def word? (n : Int) : Option Int64 := if IsWord n then some (.ofInt n) else none

def minus? (a b : Int64) : Option Int64 := word? (a.toInt - b.toInt)

def quotient? (a b : Int64) : Option Int64 :=
  if b = 0 then none else word? (a.toInt.tdiv b.toInt)

-- There is no remainder where there is no quotient.
def remainder? (a b : Int64) : Option Int64 :=
  (quotient? a b).bind fun _ => word? (a.toInt.tmod b.toInt)

-- The test of a position by operations that fail where they overflow or divide by zero.
def picks? (f : Formula) (position : Nat) : Option Bool :=
  if position ≤ 9223372036854775807 then do
    let distance ← minus? (.ofNat position) f.offset.toInt64
    let step := f.step.toInt64
    if step == 0 then return distance == 0
    else if (← remainder? distance step) == 0 then return 0 ≤ (← quotient? distance step)
    else return false
  else some false

theorem word?_toInt (word : Int64) : word? word.toInt = some word := by
  rw [word?, if_pos ⟨word.minValue_le_toInt, word.toInt_le⟩, Int64.ofInt_toInt]

theorem toInt_sub_of_isWord (h : IsWord (a.toInt - b.toInt)) :
    (a - b).toInt = a.toInt - b.toInt := by
  obtain ⟨hlow, hhigh⟩ := h
  rw [Int64.toInt_minValue] at hlow
  rw [Int64.toInt_maxValue] at hhigh
  rw [Int64.toInt_sub]
  exact Int.bmod_eq_of_le (by omega) (by omega)

theorem minus?_eq_sub (h : IsWord (a.toInt - b.toInt)) : minus? a b = some (a - b) := by
  rw [minus?, ← toInt_sub_of_isWord h, word?_toInt]

-- Of the smallest number alone a quotient may be too large.
theorem quotient?_eq_div (ha : a ≠ Int64.minValue) (hb : b ≠ 0) :
    quotient? a b = some (a / b) := by
  rw [quotient?, if_neg hb, ← Int64.toInt_div_of_ne_left a b ha, word?_toInt]

theorem remainder?_eq_mod (ha : a ≠ Int64.minValue) (hb : b ≠ 0) :
    remainder? a b = some (a % b) := by
  rw [remainder?, quotient?_eq_div ha hb, Option.bind_some, ← Int64.toInt_mod, word?_toInt]

-- Remainder and quotient tell whether a distance is covered by steps that all lead forward.
theorem exists_mul_iff (hs : step ≠ 0) :
    (∃ n : Nat, step * n = distance) ↔ distance.tmod step = 0 ∧ 0 ≤ distance.tdiv step := by
  constructor
  · rintro ⟨n, rfl⟩
    rw [Int.mul_tdiv_cancel_left _ hs]
    exact ⟨Int.mul_tmod_right step n, Int.natCast_nonneg n⟩
  · rintro ⟨hmod, hdiv⟩
    obtain ⟨n, hn⟩ := Int.eq_ofNat_of_zero_le hdiv
    refine ⟨n, ?_⟩
    rw [← hn]
    exact Int.mul_tdiv_cancel' (Int.dvd_of_tmod_eq_zero hmod)

theorem toInt64_eq_zero_iff {x : Int32} : x.toInt64 = 0 ↔ x.toInt = 0 := by
  rw [← Int64.toInt_inj, Int32.toInt_toInt64, Int64.toInt_zero]

theorem isWord_of_lt (h : position < 2 ^ 62) : IsWord (position - f.offset.toInt) := by
  have hlow := f.offset.le_toInt
  have hhigh := f.offset.toInt_lt
  rw [IsWord, Int64.toInt_minValue, Int64.toInt_maxValue]
  omega

theorem picks_of_lt (h : 9223372036854775807 < position) : f.picks position = false := by
  rw [picks, if_neg (Nat.not_le_of_lt h)]

section Distance

variable (hle : position ≤ 9223372036854775807) (hd : IsWord (position - f.offset.toInt))

include hle

theorem toInt_operands : (Int64.ofNat position).toInt - f.offset.toInt64.toInt =
    position - f.offset.toInt := by
  rw [Int64.toInt_ofNat_of_lt (by omega), Int32.toInt_toInt64]

include hd

theorem toInt_distance :
    (Int64.ofNat position - f.offset.toInt64).toInt = position - f.offset.toInt := by
  rw [toInt_sub_of_isWord, toInt_operands hle]
  rwa [toInt_operands hle]

-- A position is not negative, and no offset takes it down to the smallest number.
theorem distance_ne_minValue : Int64.ofNat position - f.offset.toInt64 ≠ Int64.minValue := by
  intro he
  have hmin := congrArg Int64.toInt he
  rw [toInt_distance hle hd, Int64.toInt_minValue] at hmin
  have hoffset := f.offset.toInt_lt
  omega

theorem picks?_eq_some : f.picks? position = some (f.picks position) := by
  have hmin := distance_ne_minValue hle hd
  have hminus := minus?_eq_sub (a := .ofNat position) (b := f.offset.toInt64)
    (by rwa [toInt_operands hle])
  rw [picks?, picks, if_pos hle, if_pos hle, hminus]
  by_cases hstep : f.step.toInt64 = 0
  · simp [hstep]
  · have hne : (f.step.toInt64 == 0) = false := beq_eq_false_iff_ne.2 hstep
    simp only [Option.bind_eq_bind, Option.bind_some, hne, remainder?_eq_mod hmin hstep,
      quotient?_eq_div hmin hstep]
    by_cases hmod : (Int64.ofNat position - f.offset.toInt64) % f.step.toInt64 = 0 <;>
      simp [hmod]

theorem picks_iff_exists_mul :
    f.picks position = true ↔ ∃ n : Nat, f.step.toInt * n = position - f.offset.toInt := by
  have hdistance := toInt_distance hle hd
  rw [picks, if_pos hle]
  by_cases hstep : f.step.toInt = 0
  · have hzero := toInt64_eq_zero_iff.2 hstep
    simp only [hzero, hstep, beq_self_eq_true, if_true, beq_iff_eq, zero_mul, exists_const]
    rw [← Int64.toInt_inj, hdistance, Int64.toInt_zero, eq_comm]
  · have hne : (f.step.toInt64 == 0) = false :=
      beq_eq_false_iff_ne.2 (mt toInt64_eq_zero_iff.1 hstep)
    simp only [hne, if_false, Bool.false_eq_true, Bool.and_eq_true, beq_iff_eq, decide_eq_true_eq]
    rw [exists_mul_iff hstep, ← Int64.toInt_inj, Int64.toInt_mod, Int64.le_iff_toInt_le,
      Int64.toInt_div_of_ne_left _ _ (distance_ne_minValue hle hd), hdistance,
      Int32.toInt_toInt64, Int64.toInt_zero]

end Distance

theorem picks_iff_of_isWord (hd : IsWord (position - f.offset.toInt)) :
    f.picks position = true ↔ position ≤ 9223372036854775807 ∧
      ∃ n : Nat, f.step.toInt * n + f.offset.toInt = position := by
  by_cases hle : position ≤ 9223372036854775807
  · rw [picks_iff_exists_mul hle hd, and_iff_right hle]
    simp only [eq_sub_iff_add_eq]
  · refine iff_of_false ?_ fun hpicked => hle hpicked.1
    rw [picks_of_lt (Nat.lt_of_not_le hle)]
    exact Bool.false_ne_true

-- A formula selects the positions that steps from the offset lead to. Where no word holds the
-- distance from the offset, it is the arithmetic of words that tells.
def Selects (f : Formula) (position : Nat) : Prop :=
  if IsWord (position - f.offset.toInt) then
    position ≤ 9223372036854775807 ∧ ∃ n : Nat, f.step.toInt * n + f.offset.toInt = position
  else f.picks position = true

theorem picks_iff_selects : f.picks position = true ↔ f.Selects position := by
  rw [Selects]
  split
  · next hd => exact picks_iff_of_isWord hd
  · exact Iff.rfl

-- Picked are the positions that steps from the offset lead to, and no operation fails in
-- finding out, as long as the distance from the offset is a word. No position past the words
-- is ever picked.
theorem picks_iff_exists_mul_add (f : Formula) (position : Nat) :
    (IsWord (position - f.offset.toInt) →
      (f.picks position = true ↔ position ≤ 9223372036854775807 ∧
        ∃ n : Nat, f.step.toInt * n + f.offset.toInt = position) ∧
      f.picks? position = some (f.picks position)) ∧
    (position < 2 ^ 62 → IsWord (position - f.offset.toInt)) ∧
    (9223372036854775807 < position → f.picks position = false) := by
  refine ⟨fun hd => ⟨picks_iff_of_isWord hd, ?_⟩, isWord_of_lt, picks_of_lt⟩
  by_cases hle : position ≤ 9223372036854775807
  · exact picks?_eq_some hle hd
  · rw [picks?, picks, if_neg hle, if_neg hle]

-- The longest distance that is a word, from the smallest offset.
theorem picks_iff_exists_mul_add_far : IsWord (9223372034707292159 - (-2147483648)) ∧
    (⟨7, -2147483648⟩ : Formula).picks 9223372034707292159 = true ∧
    (⟨7, -2147483648⟩ : Formula).picks? 9223372034707292159 = some true := by
  have hd : IsWord (9223372034707292159 - (-2147483648)) := by decide
  obtain ⟨hpicks, hsafe⟩ :=
    (picks_iff_exists_mul_add ⟨7, -2147483648⟩ 9223372034707292159).1 hd
  have hpicked : (⟨7, -2147483648⟩ : Formula).picks 9223372034707292159 = true :=
    hpicks.2 ⟨by decide, 1317624576693539401, by decide⟩
  exact ⟨hd, hpicked, hsafe.trans (congrArg some hpicked)⟩

end CssQuery.Formula
