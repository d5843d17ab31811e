import CssQuery.Text.Ascii

namespace CssQuery

-- The formula An+B picks the positions A * n + B for n = 0, 1, 2, and so on.
-- Positions count from one.
structure Formula where
  step : Int32
  offset : Int32
  deriving DecidableEq, Repr

namespace Formula

def odd : Formula := ⟨2, 1⟩

def even : Formula := ⟨2, 0⟩

-- The largest number of the word that holds a step or an offset.
def largest : Nat := 2147483647

inductive Sign where
  | plus
  | minus
  deriving DecidableEq, Repr

-- A sign at the head of a text, which counts as plus when absent.
def sign : List Char → Sign × List Char
  | '+' :: rest => (.plus, rest)
  | '-' :: rest => (.minus, rest)
  | rest => (.plus, rest)

-- The signed number, if the word has it. The smallest number has no positive
-- counterpart.
def Sign.apply? : Sign → Nat → Option Int32
  | .plus, n => if n ≤ largest then some (Int32.ofInt n) else none
  | .minus, n => if n ≤ largest + 1 then some (Int32.ofInt (-n)) else none

def signed? (cs : List Char) : Option Int32 :=
  let (s, digits) := sign cs
  if Text.isDigits digits then s.apply? (Text.decimal digits) else none

def step? : List Char → Option Int32
  | [] | ['+'] => some 1
  | ['-'] => some (-1)
  | cs => signed? cs

-- The offset written after the letter n. It needs a sign, and blanks may stand
-- on both sides of that sign.
def offset? (cs : List Char) : Option Int32 :=
  match Text.trimStart cs with
  | [] => some 0
  | '+' :: rest => magnitude? .plus (Text.trimStart rest)
  | '-' :: rest => magnitude? .minus (Text.trimStart rest)
  | _ => none
where
  -- The digits have to fit the word before the sign is applied.
  magnitude? (s : Sign) (digits : List Char) : Option Int32 :=
    if Text.isDigits digits && Text.decimal digits ≤ largest then s.apply? (Text.decimal digits)
    else none

-- The formula that a text writes, without regard to case and outer blanks.
def ofText? (text : String) : Option Formula :=
  let cs := (Text.trim text.toList).map Char.toLower
  if cs = ['o', 'd', 'd'] then some odd
  else if cs = ['e', 'v', 'e', 'n'] then some even
  else
    match cs.dropWhile (· != 'n') with
    | [] => (signed? cs).map fun b => ⟨0, b⟩
    | _ :: rest => do return ⟨← step? (cs.takeWhile (· != 'n')), ← offset? rest⟩

-- Positions past the largest 64-bit number are never picked. Below it the
-- distance from the offset has to be a non-negative multiple of the step.
def picks (f : Formula) (position : Nat) : Bool :=
  if position ≤ 9223372036854775807 then
    let distance := Int64.ofNat position - f.offset.toInt64
    let step := f.step.toInt64
    if step == 0 then distance == 0 else distance % step == 0 && 0 ≤ distance / step
  else false

end Formula

end CssQuery
