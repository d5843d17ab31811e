namespace CssQuery.Text

-- The five blank characters separate tokens in a selector and words in an
-- attribute value. No other space character of Unicode counts.
def isBlank (c : Char) : Bool :=
  c == ' ' || c == '\t' || c == '\n' || c == '\r' || c == '\x0c'

-- Lower-cases the 26 ASCII capitals and leaves every other character alone.
def fold (text : String) : String := String.ofList (text.toList.map Char.toLower)

def sameFolded (a b : String) : Bool := fold a == fold b

def trimStart (cs : List Char) : List Char := cs.dropWhile isBlank

def trimEnd (cs : List Char) : List Char := (trimStart cs.reverse).reverse

def trim (cs : List Char) : List Char := trimEnd (trimStart cs)

-- The words of a text are its maximal pieces without blanks.
def words : List Char → List (List Char)
  | [] => []
  | c :: rest =>
      if isBlank c then words rest
      else
        (c :: rest.takeWhile (!isBlank ·)) :: words (rest.dropWhile (!isBlank ·))
termination_by cs => cs.length
decreasing_by
  · simp
  · have := (List.dropWhile_suffix (l := rest) (!isBlank ·)).length_le
    simp only [List.length_cons]; omega

-- Positions in a text count the bytes of its UTF-8 form.
def byteSize : List Char → Nat
  | [] => 0
  | c :: rest => c.utf8Size + byteSize rest

@[simp] theorem byteSize_nil : byteSize [] = 0 := rfl

@[simp] theorem byteSize_cons (c : Char) (cs : List Char) :
    byteSize (c :: cs) = c.utf8Size + byteSize cs := rfl

@[simp] theorem byteSize_append (a b : List Char) :
    byteSize (a ++ b) = byteSize a + byteSize b := by
  induction a with
  | nil => simp
  | cons c rest ih => simp only [List.cons_append, byteSize_cons, ih, Nat.add_assoc]

def bytes (cs : List Char) : List UInt8 := cs.flatMap String.utf8EncodeChar

-- Lower-cases the byte of an ASCII capital. No byte of a longer character is one.
def foldByte (byte : UInt8) : UInt8 := if 0x41 ≤ byte ∧ byte ≤ 0x5a then byte + 0x20 else byte

theorem length_bytes_pos {cs : List Char} (h : cs ≠ []) : 0 < (bytes cs).length := by
  cases cs with
  | nil => exact absurd rfl h
  | cons c rest =>
      rw [bytes, List.flatMap_cons, List.length_append, String.length_utf8EncodeChar]
      exact Nat.add_pos_left c.utf8Size_pos _

def isDigits (cs : List Char) : Bool := !cs.isEmpty && cs.all Char.isDigit

def decimal (digits : List Char) : Nat :=
  digits.foldl (fun value d => 10 * value + (d.toNat - '0'.toNat)) 0

def isHexDigit (c : Char) : Bool :=
  c.isDigit || ('a' ≤ c && c ≤ 'f') || ('A' ≤ c && c ≤ 'F')

def hexDigit (c : Char) : Nat :=
  if c.isDigit then c.toNat - '0'.toNat else c.toLower.toNat - 'a'.toNat + 10

def hexadecimal (digits : List Char) : Nat :=
  digits.foldl (fun value d => 16 * value + hexDigit d) 0

end CssQuery.Text
