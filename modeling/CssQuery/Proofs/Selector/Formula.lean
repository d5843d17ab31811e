import CssQuery.Proofs.Text.Digits
import CssQuery.Proofs.Text.Utf8
import CssQuery.Selector.Formula

namespace CssQuery.Formula

variable {x : Int32} {c : Char} {cs digits : List Char} {f : Formula}

-- An offset behind the letter n is never the smallest number, as its digits alone have to
-- fit the word.
def WellFormed (f : Formula) : Prop := f.step ≠ 0 → -2147483648 < f.offset.toInt

theorem magnitude?_gt {s : Sign} (h : offset?.magnitude? s digits = some x) :
    -2147483648 < x.toInt := by
  unfold offset?.magnitude? at h
  split at h
  · next hdigits =>
      have hle : Text.decimal digits ≤ 2147483647 := by
        rw [Bool.and_eq_true] at hdigits
        exact of_decide_eq_true hdigits.2
      cases s with
      | plus =>
          obtain ⟨-, hx⟩ := Option.ite_none_right_eq_some.1 h
          obtain rfl := Option.some.inj hx
          rw [Int32.toInt_ofInt_of_le] <;> omega
      | minus =>
          obtain ⟨-, hx⟩ := Option.ite_none_right_eq_some.1 h
          obtain rfl := Option.some.inj hx
          rw [Int32.toInt_ofInt_of_le] <;> omega
  · cases h

theorem offset?_gt (h : offset? cs = some x) : -2147483648 < x.toInt := by
  unfold offset? at h
  split at h
  · obtain rfl := Option.some.inj h
    decide
  · exact magnitude?_gt h
  · exact magnitude?_gt h
  · cases h

theorem ofText?_wellFormed {text : String} (h : ofText? text = some f) : f.WellFormed := by
  intro hstep
  unfold ofText? at h
  simp only at h
  split at h
  · obtain rfl := Option.some.inj h
    decide
  · split at h
    · obtain rfl := Option.some.inj h
      decide
    · split at h
      · obtain ⟨b, -, rfl⟩ := Option.map_eq_some_iff.1 h
        exact absurd rfl hstep
      · obtain ⟨a, -, h⟩ := Option.bind_eq_some_iff.1 h
        obtain ⟨b, hb, h⟩ := Option.bind_eq_some_iff.1 h
        obtain rfl := Option.some.inj h
        exact offset?_gt hb

-- How a number is written: always with its sign.
def signOf (x : Int32) : Char := if 0 ≤ x.toInt then '+' else '-'

def digitsOf (x : Int32) : List Char := Nat.toDigits 10 x.toInt.natAbs

def written (x : Int32) : List Char := signOf x :: digitsOf x

theorem isDigit_of_mem (h : c ∈ digitsOf x) : c.isDigit = true :=
  Nat.isDigit_of_mem_toDigits (by decide) (by decide) h

theorem isDigits_digitsOf : Text.isDigits (digitsOf x) = true := by
  have hne : digitsOf x ≠ [] := Nat.toDigits_ne_nil
  simp only [Text.isDigits, Bool.and_eq_true, Bool.not_eq_true', List.isEmpty_eq_false_iff,
    List.all_eq_true]
  exact ⟨hne, fun c => isDigit_of_mem⟩

theorem decimal_digitsOf : Text.decimal (digitsOf x) = x.toInt.natAbs :=
  Nat.ofDigitChars_ten_toDigits

-- The sign that a number is written with, as it is read.
def signRead (x : Int32) : Sign := if 0 ≤ x.toInt then .plus else .minus

theorem some_of_signRead : Sign.apply? (signRead x) x.toInt.natAbs = some x := by
  have hlow := x.le_toInt
  have hhigh := x.toInt_lt
  by_cases hx : 0 ≤ x.toInt
  · have hle : x.toInt.natAbs ≤ largest := by unfold largest; omega
    have habs : (x.toInt.natAbs : Int) = x.toInt := Int.natAbs_of_nonneg hx
    rw [signRead, if_pos hx, Sign.apply?, if_pos hle, habs, Int32.ofInt_toInt]
  · have hle : x.toInt.natAbs ≤ largest + 1 := by unfold largest; omega
    have habs : -(x.toInt.natAbs : Int) = x.toInt := by omega
    rw [signRead, if_neg hx, Sign.apply?, if_pos hle, habs, Int32.ofInt_toInt]

theorem sign_written : sign (written x) = (signRead x, digitsOf x) := by
  unfold written signOf signRead
  split <;> rfl

theorem signed?_written : signed? (written x) = some x := by
  rw [signed?, sign_written]
  simp only [isDigits_digitsOf, if_true, decimal_digitsOf, some_of_signRead]

theorem step?_written : step? (written x) = some x := by
  have hne : digitsOf x ≠ [] := Nat.toDigits_ne_nil
  obtain ⟨d, ds, hds⟩ := List.exists_cons_of_ne_nil hne
  have hstep : step? (written x) = signed? (written x) := by
    rw [written, hds]
    simp [step?]
  rw [hstep, signed?_written]

-- A character that folding, trimming and the two words leave alone.
def Plain (c : Char) : Prop := c.toLower = c ∧ Text.isBlank c = false ∧ c ≠ 'o' ∧ c ≠ 'e'

theorem plain_of_isDigit (h : c.isDigit = true) : Plain c := by
  refine ⟨?_, Text.isBlank_of_isDigit h, Text.ne_of_isDigit h rfl, Text.ne_of_isDigit h rfl⟩
  exact Text.toLower_eq_self (Text.isUpper_of_isDigit h)

theorem plain_of_mem_written (h : c ∈ written x) : Plain c := by
  obtain rfl | h := List.mem_cons.1 h
  · unfold Plain signOf
    split <;> decide
  · exact plain_of_isDigit (isDigit_of_mem h)

theorem trimStart_eq (h : ∀ c ∈ cs, Plain c) : Text.trimStart cs = cs := by
  cases cs with
  | nil => rfl
  | cons c rest =>
      have hc := (h c List.mem_cons_self).2.1
      exact List.dropWhile_cons_of_neg (by simp [hc])

theorem offset?_written (h : -2147483648 < x.toInt) : offset? (written x) = some x := by
  have htrim : Text.trimStart (written x) = written x := trimStart_eq fun c => plain_of_mem_written
  have hdigits : Text.trimStart (digitsOf x) = digitsOf x :=
    trimStart_eq fun c hc => plain_of_isDigit (isDigit_of_mem hc)
  have hle : x.toInt.natAbs ≤ largest := by
    have hhigh := x.toInt_lt
    unfold largest
    omega
  have hmagnitude : offset?.magnitude? (signRead x) (digitsOf x) = some x := by
    simp only [offset?.magnitude?, isDigits_digitsOf, decimal_digitsOf, hle, decide_true,
      Bool.and_self, if_true, some_of_signRead]
  rw [offset?, htrim]
  by_cases hx : 0 ≤ x.toInt
  · rw [signRead, if_pos hx] at hmagnitude
    simp only [written, signOf, hx, if_true, hdigits]
    exact hmagnitude
  · rw [signRead, if_neg hx] at hmagnitude
    simp only [written, signOf, hx, if_false, hdigits]
    exact hmagnitude

theorem ofText?_plain (h : ∀ c ∈ cs, Plain c) : ofText? (String.ofList cs) =
    match cs.dropWhile (· != 'n') with
    | [] => (signed? cs).map fun b => ⟨0, b⟩
    | _ :: rest => do return ⟨← step? (cs.takeWhile (· != 'n')), ← offset? rest⟩ := by
  have htrim : Text.trim cs = cs := by
    have hreverse : Text.trimStart cs.reverse = cs.reverse :=
      trimStart_eq fun c hc => h c (List.mem_reverse.1 hc)
    rw [Text.trim, trimStart_eq h, Text.trimEnd, hreverse, List.reverse_reverse]
  have hlower : cs.map Char.toLower = cs := by
    rw [List.map_congr_left fun c hc => (h c hc).1]
    exact List.map_id cs
  have hodd : cs ≠ ['o', 'd', 'd'] := by
    rintro rfl
    exact (h 'o' List.mem_cons_self).2.2.1 rfl
  have heven : cs ≠ ['e', 'v', 'e', 'n'] := by
    rintro rfl
    exact (h 'e' List.mem_cons_self).2.2.2 rfl
  rw [ofText?, String.toList_ofList, htrim, hlower]
  exact (if_neg hodd).trans (if_neg heven)

theorem ne_n_of_mem_written (h : c ∈ written x) : (c != 'n') = true := by
  obtain rfl | h := List.mem_cons.1 h
  · unfold signOf
    split <;> rfl
  · exact bne_iff_ne.2 (Text.ne_of_isDigit (isDigit_of_mem h) rfl)

theorem ofText?_offset : ofText? (String.ofList (written x)) = some ⟨0, x⟩ := by
  have hdrop : (written x).dropWhile (· != 'n') = [] := by
    have hall : (written x ++ []).dropWhile (· != 'n') = [] :=
      List.dropWhile_append_of_pos fun c => ne_n_of_mem_written
    rwa [List.append_nil] at hall
  rw [ofText?_plain fun c => plain_of_mem_written, hdrop]
  simp only [signed?_written, Option.map_some]

theorem ofText?_step (h : -2147483648 < f.offset.toInt) :
    ofText? (String.ofList (written f.step ++ 'n' :: written f.offset)) = some f := by
  have hplain : ∀ c ∈ written f.step ++ 'n' :: written f.offset, Plain c := by
    intro c hc
    obtain hc | hc := List.mem_append.1 hc
    · exact plain_of_mem_written hc
    · obtain rfl | hc := List.mem_cons.1 hc
      · unfold Plain
        decide
      · exact plain_of_mem_written hc
  have hfirst : ∀ c ∈ written f.step, (c != 'n') = true := fun c => ne_n_of_mem_written
  rw [ofText?_plain hplain, List.dropWhile_append_of_pos hfirst,
    List.takeWhile_append_of_pos hfirst, List.dropWhile_cons_of_neg (by decide),
    List.takeWhile_cons_of_neg (by decide), List.append_nil]
  simp only [step?_written, offset?_written h]
  rfl

-- A formula has a text that writes it, unless its offset behind the letter n is the smallest
-- number, whose digits alone are too many. On its own that number can be written.
theorem exists_ofText?_iff : (∃ text, ofText? text = some f) ↔ f.WellFormed := by
  constructor
  · rintro ⟨text, h⟩
    exact ofText?_wellFormed h
  · intro h
    obtain ⟨step, offset⟩ := f
    by_cases hstep : step = 0
    · subst hstep
      exact ⟨_, ofText?_offset⟩
    · exact ⟨_, ofText?_step (h hstep)⟩

theorem not_forall_exists_ofText? : ¬ ∀ f : Formula, ∃ text, ofText? text = some f := by
  intro hall
  obtain ⟨text, h⟩ := hall ⟨1, -2147483648⟩
  exact absurd (ofText?_wellFormed h (by decide)) (by decide)

end CssQuery.Formula
