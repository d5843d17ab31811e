import CssQuery.Json
import CssQuery.Json.Number
import CssQuery.Reading

namespace CssQuery.Json.Reader

abbrev Result (α : Type) (bound : Nat) := Except Fault (Reading Char α bound)

-- A value that is kept has to nest at most so deep, its numbers have to fit a
-- double, and its escapes have to give characters. A value that is skipped need
-- not, but a number in it that the end of the text cuts off counts as wrong.
inductive Care where
  | keep
  | skip
  deriving DecidableEq, Repr

-- How many brackets may be open at once.
def maxOpen : Nat := 127

def isBlank (c : Char) : Bool := c == ' ' || c == '\n' || c == '\t' || c == '\r'

def skipBlanks (cs : List Char) : List Char := cs.dropWhile isBlank

theorem skipBlanks_length (cs : List Char) : (skipBlanks cs).length ≤ cs.length :=
  (List.dropWhile_suffix _).length_le

theorem skipBlanks_rest {c : Char} {cs rest : List Char} (h : skipBlanks cs = c :: rest) :
    rest.length < cs.length := by
  have := skipBlanks_length cs
  rw [h, List.length_cons] at this
  exact this

def sign? (expected : Char) (cs : List Char) : Option (Reading Char Unit cs.length) :=
  match h : skipBlanks cs with
  | [] => none
  | c :: rest => if c = expected then some ⟨(), rest, skipBlanks_rest h⟩ else none

def sign (expected : Char) (cs : List Char) : Result Unit cs.length :=
  match sign? expected cs with
  | some read => .ok read
  | none => .error (if (skipBlanks cs).isEmpty then .unfinished else .malformed)

def word (expected cs : List Char) : Result Unit (cs.length + 1) :=
  match expected with
  | [] => .ok (.ofNone () cs)
  | e :: more =>
      match cs with
      | [] => .error .unfinished
      | c :: rest => if c = e then (word more rest).map (·.weaken) else .error .malformed

-- What is wrong when the text ends where a number needs a digit.
def Care.cutOff : Care → Fault
  | .keep => .unfinished
  | .skip => .malformed

def digits (care : Care) (cs : List Char) : Result (List Char) cs.length :=
  match cs with
  | [] => .error care.cutOff
  | c :: rest =>
      if c.isDigit then .ok ((Reading.takeWhile Char.isDigit rest).map (c :: ·))
      else .error .malformed

-- A whole number has no zero in front of other digits.
def whole (care : Care) (cs : List Char) : Result (List Char) cs.length :=
  match cs with
  | '0' :: rest =>
      if rest.head?.any Char.isDigit then .error .malformed
      else .ok (.ofHead ['0'] '0' rest)
  | cs => digits care cs

def fraction (care : Care) (cs : List Char) : Result (List Char) (cs.length + 1) :=
  match cs with
  | '.' :: rest => (digits care rest).map (·.weaken.weaken)
  | cs => .ok (.ofNone [] cs)

-- A whole number, which may have a sign.
def integer (care : Care) (cs : List Char) : Result Int cs.length :=
  match cs with
  | '+' :: rest =>
      (digits care rest).map fun r => (r.map fun ds => (Text.decimal ds : Int)).weaken
  | '-' :: rest =>
      (digits care rest).map fun r => (r.map fun ds => -(Text.decimal ds : Int)).weaken
  | cs => (digits care cs).map (·.map fun ds => (Text.decimal ds : Int))

def exponent (care : Care) (cs : List Char) : Result Int (cs.length + 1) :=
  match cs with
  | [] => .ok (.ofNone 0 [])
  | c :: rest =>
      if c = 'e' ∨ c = 'E' then (integer care rest).map (·.weaken.weaken)
      else .ok (.ofNone 0 (c :: rest))

def numeral (care : Care) (isNegative : Bool) (cs : List Char) : Result Numeral cs.length := do
  let whole ← whole care cs
  let fraction ← fraction care whole.rest
  let exponent ← exponent care fraction.rest
  let numeral := exponent.map fun power => ⟨isNegative, whole.value, fraction.value, power⟩
  return whole.continuedBy (fraction.continuedBy numeral)

def signed (care : Care) (cs : List Char) : Result Numeral cs.length :=
  match cs with
  | '-' :: rest => (numeral care true rest).map (·.weaken)
  | cs => numeral care false cs

def number (care : Care) (cs : List Char) : Result Json cs.length := do
  let read ← signed care cs
  if care = .keep && !read.value.isRepresentable then throw .malformed
  let literal := cs.take (cs.length - read.rest.length)
  return read.map fun _ => .number (String.ofList literal)

-- Four hex digits. They are missing if fewer than four bytes are left.
def unit (cs : List Char) : Result Nat cs.length :=
  match cs with
  | a :: b :: c :: d :: rest =>
      if [a, b, c, d].all Text.isHexDigit then
        .ok (Reading.ofHead (Text.hexadecimal [a, b, c, d]) d rest).weaken.weaken.weaken
      else .error .malformed
  | cs => .error (if Text.byteSize cs < 4 then .unfinished else .malformed)

def isLeading (unit : Nat) : Bool := 0xd800 ≤ unit && unit ≤ 0xdbff

def isTrailing (unit : Nat) : Bool := 0xdc00 ≤ unit && unit ≤ 0xdfff

-- The character that two units write together.
def charOfPair (leading trailing : Nat) : Char :=
  Char.ofNat (0x10000 + (leading - 0xd800) * 0x400 + (trailing - 0xdc00))

-- A unit of its own escape, right after another one.
def secondUnit (cs : List Char) : Result Nat cs.length :=
  match cs with
  | '\\' :: 'u' :: rest => (unit rest).map (·.weaken.weaken)
  | [] | ['\\'] => .error .unfinished
  | _ => .error .malformed

-- A character written by its code. Characters past U+FFFF take a pair of escapes.
def coded (care : Care) (cs : List Char) : Result Char cs.length := do
  let first ← unit cs
  if care = .skip then return first.map Char.ofNat
  else if isTrailing first.value then throw .malformed
  else if isLeading first.value then
    let second ← secondUnit first.rest
    if isTrailing second.value then
      return first.followedBy (second.map (charOfPair first.value))
    else throw .malformed
  else return first.map Char.ofNat

-- The character that a letter after a backslash stands for.
def simpleEscape? : Char → Option Char
  | '"' => some '"'
  | '\\' => some '\\'
  | '/' => some '/'
  | 'b' => some '\x08'
  | 'f' => some '\x0c'
  | 'n' => some '\n'
  | 'r' => some '\r'
  | 't' => some '\t'
  | _ => none

-- What an escape stands for, after its backslash.
def escape (care : Care) (cs : List Char) : Result Char cs.length :=
  match cs with
  | [] => .error .unfinished
  | 'u' :: rest => (coded care rest).map (·.weaken)
  | e :: rest =>
      match simpleEscape? e with
      | none => .error .malformed
      | some c => .ok (.ofHead c e rest)

def string (care : Care) (cs : List Char) : Result (List Char) cs.length :=
  match cs with
  | [] => .error .unfinished
  | '"' :: rest => .ok (.ofHead [] '"' rest)
  | '\\' :: rest =>
      match escape care rest with
      | .error fault => .error fault
      | .ok first =>
          match string care first.rest with
          | .error fault => .error fault
          | .ok more => .ok (first.followedBy (more.map (first.value :: ·))).weaken
  | c :: rest =>
      if c.toNat < 0x20 then .error .malformed
      else
        match string care rest with
        | .error fault => .error fault
        | .ok more => .ok (more.map (c :: ·)).weaken
termination_by cs.length
decreasing_by
  · exact Nat.lt_succ_of_lt first.within
  · exact Nat.lt_succ_self _

abbrev ValueReader := (cs : List Char) → Result Json cs.length

-- Items after the first one, up to the closing bracket.
def items (value : ValueReader) (cs : List Char) : Result (List Json) cs.length :=
  match sign? ']' cs with
  | some close => .ok (close.map fun _ => [])
  | none =>
      match sign ',' cs with
      | .error fault => .error fault
      | .ok comma =>
          match value comma.rest with
          | .error fault => .error fault
          | .ok item =>
              match items value item.rest with
              | .error fault => .error fault
              | .ok more =>
                  .ok (comma.followedBy (item.followedBy (more.map (item.value :: ·))))
termination_by cs.length
decreasing_by exact Nat.lt_trans item.within comma.within

def array (value : ValueReader) (cs : List Char) : Result (List Json) cs.length :=
  match sign? ']' cs with
  | some close => .ok (close.map fun _ => [])
  | none => do
      let item ← value cs
      let more ← items value item.rest
      return item.followedBy (more.map (item.value :: ·))

def key (care : Care) (cs : List Char) : Result String cs.length := do
  let quote ← sign '"' cs
  let name ← string care quote.rest
  return quote.followedBy (name.map String.ofList)

def field (care : Care) (value : ValueReader) (cs : List Char) :
    Result (String × Json) cs.length := do
  let name ← key care cs
  let colon ← sign ':' name.rest
  let value ← value colon.rest
  return name.followedBy (colon.followedBy (value.map (name.value, ·)))

-- Fields after the first one, up to the closing brace.
def fields (care : Care) (value : ValueReader) (cs : List Char) :
    Result (List (String × Json)) cs.length :=
  match sign? '}' cs with
  | some close => .ok (close.map fun _ => [])
  | none =>
      match sign ',' cs with
      | .error fault => .error fault
      | .ok comma =>
          match field care value comma.rest with
          | .error fault => .error fault
          | .ok first =>
              match fields care value first.rest with
              | .error fault => .error fault
              | .ok more =>
                  .ok (comma.followedBy (first.followedBy (more.map (first.value :: ·))))
termination_by cs.length
decreasing_by exact Nat.lt_trans first.within comma.within

def object (care : Care) (value : ValueReader) (cs : List Char) :
    Result (List (String × Json)) cs.length :=
  match sign? '}' cs with
  | some close => .ok (close.map fun _ => [])
  | none => do
      let first ← field care value cs
      let more ← fields care value first.rest
      return first.followedBy (more.map (first.value :: ·))

-- A value whose first character, after blanks, is c.
def valueFrom (care : Care) (nested : Option ValueReader) (c : Char) (rest : List Char) :
    Result Json (c :: rest).length :=
  if c = 'n' then (word ['u', 'l', 'l'] rest).map (·.map fun _ => .null)
  else if c = 't' then (word ['r', 'u', 'e'] rest).map (·.map fun _ => .bool true)
  else if c = 'f' then (word ['a', 'l', 's', 'e'] rest).map (·.map fun _ => .bool false)
  else if c = '-' ∨ c.isDigit then number care (c :: rest)
  else if c = '"' then
    (string care rest).map fun r => (r.map (.string <| String.ofList ·)).weaken
  else if c = '[' then
    match nested with
    | some value => (array value rest).map fun r => (r.map .array).weaken
    | none => .error .malformed
  else if c = '{' then
    match nested with
    | some value => (object care value rest).map fun r => (r.map .object).weaken
    | none => .error .malformed
  else .error .malformed

-- A value in which a given number of brackets may still be opened.
def value (care : Care) (room : Nat) (cs : List Char) : Result Json cs.length :=
  match h : skipBlanks cs with
  | [] => .error .unfinished
  | c :: rest =>
      match room with
      | 0 => (valueFrom care none c rest).map (·.widen (skipBlanks_rest h))
      | room + 1 =>
          (valueFrom care (some (value care room)) c rest).map (·.widen (skipBlanks_rest h))

end CssQuery.Json.Reader
