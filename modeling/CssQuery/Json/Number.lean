import CssQuery.Text.Ascii

namespace CssQuery.Json

-- A number as it is written: its digits before and after the point, and its
-- exponent.
structure Numeral where
  isNegative : Bool
  whole : List Char
  fraction : List Char
  exponent : Int
  deriving DecidableEq, Repr

namespace Numeral

-- The natural number nearest to n among those of 53 significant bits. Of two that
-- are equally near the one with an even last bit is taken.
def roundBits (n : Nat) : Nat :=
  let scale := 1 <<< (n.log2 - 52)
  let kept := n / scale
  let left := n % scale
  if scale < 2 * left || (scale == 2 * left && kept % 2 == 1) then (kept + 1) * scale
  else kept * scale

-- Digits are counted into a significand of 64 bits. Those that no longer fit only
-- move the point.
structure Significand where
  value : Nat
  shift : Int
  isFull : Bool

def Significand.addWhole (s : Significand) (digit : Char) : Significand :=
  let value := 10 * s.value + (digit.toNat - '0'.toNat)
  if s.isFull || UInt64.size ≤ value then { s with shift := s.shift + 1, isFull := true }
  else { s with value }

def Significand.addFraction (s : Significand) (digit : Char) : Significand :=
  let value := 10 * s.value + (digit.toNat - '0'.toNat)
  if s.isFull || UInt64.size ≤ value then { s with isFull := true }
  else { s with value, shift := s.shift - 1 }

def significand (n : Numeral) : Significand :=
  let whole := n.whole.foldl Significand.addWhole ⟨0, 0, false⟩
  n.fraction.foldl Significand.addFraction { whole with isFull := false }

-- Half a step past the largest double. Anything below rounds to a double.
def limit : Nat := 1 <<< 1024 - 1 <<< 970

-- Whether a double has room for the number. Small numbers round to zero, and only
-- large ones fail.
def isRepresentable (n : Numeral) : Bool :=
  let s := n.significand
  let power := s.shift + n.exponent
  s.value == 0 || power < 0 ||
    (power ≤ 308 && roundBits s.value * roundBits (Nat.pow 10 power.toNat) < limit)

end Numeral

end CssQuery.Json
