import CssQuery.Text.Ascii

namespace CssQuery

inductive Comparison where
  | equals
  | includes
  | dashMatch
  | startsWith
  | endsWith
  | contains
  deriving DecidableEq, Repr

inductive LetterCase where
  | exact
  | folded
  deriving DecidableEq, Repr

-- What a selector asks of an attribute: that it is there, or that its value
-- compares with a given one.
inductive AttributeTest where
  | exists
  | compare (comparison : Comparison) (value : String)
  deriving DecidableEq, Repr

structure AttributeSelector where
  name : String
  test : AttributeTest
  letterCase : LetterCase
  deriving DecidableEq, Repr

-- Values are compared byte by byte, with or without regard to the case of ASCII letters.
namespace LetterCase

def same (letterCase : LetterCase) (a b : List UInt8) : Bool :=
  match letterCase with
  | exact => a == b
  | folded => a.map Text.foldByte == b.map Text.foldByte

def startsWith (letterCase : LetterCase) (sought found : List UInt8) : Bool :=
  sought.length ≤ found.length && letterCase.same (found.take sought.length) sought

def endsWith (letterCase : LetterCase) (sought found : List UInt8) : Bool :=
  sought.length ≤ found.length &&
    letterCase.same (found.drop (found.length - sought.length)) sought

end LetterCase

def occursIn (needle : List Char) : List Char → Bool
  | [] => needle.isEmpty
  | c :: hay => needle.isPrefixOf (c :: hay) || occursIn needle hay

-- The pieces of a given size, at every place where there is one. A size of zero is
-- ruled out.
def windows (size : Nat) (hsize : 0 < size) : List UInt8 → List (List UInt8)
  | [] => []
  | byte :: rest =>
      if size ≤ rest.length + 1 then (byte :: rest).take size :: windows size hsize rest else []

-- The standard library searches for characters, and has no search that folds.
def LetterCase.contains (letterCase : LetterCase) (needle : List Char) (hneedle : needle ≠ [])
    (hay : List Char) : Bool :=
  match letterCase with
  | exact => occursIn needle hay
  | folded =>
      let sought := Text.bytes needle
      (windows sought.length (Text.length_bytes_pos hneedle) (Text.bytes hay)).any fun window =>
        folded.same window sought

def hyphenByte : UInt8 := 0x2d

def LetterCase.dashMatches (letterCase : LetterCase) (sought found : List UInt8) : Bool :=
  letterCase.same found sought ||
    if h : sought.length < found.length then
      found.get ⟨sought.length, h⟩ == hyphenByte && letterCase.startsWith sought found
    else false

namespace Comparison

-- An empty value is found nowhere, except that it equals the empty attribute and
-- is dash-matched by one that begins with a hyphen.
def holds (comparison : Comparison) (letterCase : LetterCase) (value actual : String) : Bool :=
  let sought := Text.bytes value.toList
  let found := Text.bytes actual.toList
  match comparison with
  | equals => letterCase.same found sought
  | includes =>
      !value.isEmpty && !value.toList.any Text.isBlank &&
        (actual.toList.splitOnP Text.isBlank).any fun word =>
          letterCase.same (Text.bytes word) sought
  | dashMatch => letterCase.dashMatches sought found
  | startsWith => !value.isEmpty && letterCase.startsWith sought found
  | endsWith => !value.isEmpty && letterCase.endsWith sought found
  | contains =>
      if h : value.toList = [] then false else letterCase.contains value.toList h actual.toList

end Comparison

def AttributeTest.holds (test : AttributeTest) (letterCase : LetterCase) (actual : String) : Bool :=
  match test with
  | .exists => true
  | .compare comparison value => comparison.holds letterCase value actual

end CssQuery
