import CssQuery.Reading
import CssQuery.Selector.Fault

namespace CssQuery.Token

open Text (isHexDigit)

-- A scan that fails tells what is wrong and which part of the text is still
-- ahead at that point.
structure Lapse where
  fault : SyntaxFault
  ahead : List Char
  deriving DecidableEq, Repr

abbrev Result (α : Type) (bound : Nat) := Except Lapse (Reading Char α bound)

def isNameStart (c : Char) : Bool := c.isAlpha || c == '_' || 0x80 ≤ c.toNat

def isNameChar (c : Char) : Bool := isNameStart c || c.isDigit || c == '-'

-- A backslash escapes anything but a line feed. At the end of the text it looks
-- like an escape too, and fails when it is read.
def startsEscape : List Char → Bool
  | '\\' :: rest => rest.head? != some '\n'
  | _ => false

def startsName : List Char → Bool
  | [] => false
  | '-' :: rest =>
      rest.head?.any (fun c => isNameStart c || c == '-') || startsEscape rest
  | c :: rest => isNameStart c || startsEscape (c :: rest)

-- The rest of a comment that is already open, unless it stays open.
def commentEnd? (cs : List Char) : Option (Reading Char Unit cs.length) :=
  match cs with
  | [] => none
  | '*' :: '/' :: rest => some (Reading.ofHead () '/' rest).weaken
  | _ :: rest => (commentEnd? rest).map (·.weaken)

def skipComments (cs : List Char) : Result Unit (cs.length + 1) :=
  match cs with
  | '/' :: '*' :: body =>
      match commentEnd? body with
      | none => .error ⟨.unterminatedComment, cs⟩
      | some comment =>
          match skipComments comment.rest with
          | .error lapse => .error lapse
          | .ok more => .ok (comment.continuedBy more).weaken.weaken.weaken
  | cs => .ok (.ofNone () cs)
termination_by cs.length
decreasing_by exact Nat.lt_succ_of_lt (Nat.lt_succ_of_lt comment.within)

-- Comments between blanks belong to the same run.
def skipBlanks (cs : List Char) : Result Unit (cs.length + 1) :=
  match cs with
  | '/' :: '*' :: body =>
      match commentEnd? body with
      | none => .error ⟨.unterminatedComment, cs⟩
      | some comment =>
          match skipBlanks comment.rest with
          | .error lapse => .error lapse
          | .ok more => .ok (comment.continuedBy more).weaken.weaken.weaken
  | c :: rest =>
      if Text.isBlank c then (skipBlanks rest).map (·.weaken) else .ok (.ofNone () (c :: rest))
  | [] => .ok (.ofNone () [])
termination_by cs.length
decreasing_by
  · exact Nat.lt_succ_of_lt (Nat.lt_succ_of_lt comment.within)
  · exact Nat.lt_succ_self _

-- The character with a given code. Zero, surrogates and codes past the last
-- character read as U+FFFD.
def charOfCode (code : Nat) : Char :=
  if code ≠ 0 ∧ code.isValidChar then Char.ofNat code else '\uFFFD'

def dropBlank (cs : List Char) : Reading Char Unit (cs.length + 1) :=
  match cs with
  | [] => .ofNone () []
  | c :: rest =>
      if Text.isBlank c then (Reading.ofHead () c rest).weaken else .ofNone () (c :: rest)

-- Hex digits as far as they go, up to a given number.
def hexDigits (cs : List Char) : Nat → Reading Char (List Char) (cs.length + 1)
  | 0 => .ofNone [] cs
  | room + 1 =>
      match cs with
      | [] => .ofNone [] []
      | c :: rest =>
          if isHexDigit c then ((hexDigits rest room).map (c :: ·)).weaken
          else .ofNone [] (c :: rest)

-- The character that the escape beginning with first stands for. Up to six hex
-- digits give its code, and one blank after them belongs to the escape.
def escaped (first : Char) (rest : List Char) : Reading Char Char (first :: rest).length :=
  if isHexDigit first then
    let more := hexDigits rest 5
    let value := charOfCode (Text.hexadecimal (first :: more.value))
    more.continuedBy ((dropBlank more.rest).map fun _ => value)
  else .ofHead first first rest

def escape (cs : List Char) : Result Char cs.length :=
  match cs with
  | [] => .error ⟨.invalidEscape, []⟩
  | first :: rest => .ok (escaped first rest)

-- The longest name at the head of a text, with its escapes resolved. It may be
-- empty.
def name (cs : List Char) : Result (List Char) (cs.length + 1) :=
  match cs with
  | [] => .ok (.ofNone [] [])
  | c :: rest =>
      if isNameChar c then
        match name rest with
        | .error lapse => .error lapse
        | .ok more => .ok (more.map (c :: ·)).weaken
      else if startsEscape (c :: rest) then
        match escape rest with
        | .error lapse => .error lapse
        | .ok first =>
            match name first.rest with
            | .error lapse => .error lapse
            | .ok more => .ok (first.continuedBy (more.map (first.value :: ·))).weaken.weaken
      else .ok (.ofNone [] (c :: rest))
termination_by cs.length
decreasing_by
  · exact Nat.lt_succ_self _
  · exact Nat.lt_succ_of_lt first.within

-- A name of which c is the first character, or the backslash of the first one.
def nameFrom (c : Char) (rest : List Char) : Result (List Char) (c :: rest).length :=
  if isNameChar c then (name rest).map (·.map (c :: ·))
  else do
    let first ← escape rest
    let more ← name first.rest
    return (first.continuedBy (more.map (first.value :: ·))).weaken

-- The value of a string whose opening quote is already read, or nothing if the
-- line or the text ends first. An escaped line feed adds nothing.
def quoted (quote : Char) (cs : List Char) : Option (Reading Char (List Char) cs.length) :=
  match cs with
  | [] => none
  | c :: rest =>
      if c = quote then some (.ofHead [] c rest)
      else if c = '\n' ∨ c = '\r' ∨ c = '\x0c' then none
      else if c = '\\' then
        match rest with
        | [] => none
        | first :: rest =>
            if first = '\n' then (quoted quote rest).map (·.weaken.weaken)
            else
              match quoted quote (escaped first rest).rest with
              | none => none
              | some more =>
                  some ((escaped first rest).followedBy
                    (more.map ((escaped first rest).value :: ·))).weaken
      else (quoted quote rest).map fun more => (more.map (c :: ·)).weaken
termination_by cs.length
decreasing_by
  · exact Nat.lt_succ_of_lt (Nat.lt_succ_self _)
  · exact Nat.lt_succ_of_lt (escaped first rest).within
  · exact Nat.lt_succ_self _

def comparison? : Char → Option Kind
  | '~' => some .includes
  | '|' => some .dashMatch
  | '^' => some .startsWith
  | '$' => some .endsWith
  | '*' => some .contains
  | _ => none

def punctuation? : Char → Option Kind
  | '(' => some .openParen
  | ')' => some .closeParen
  | ',' => some .comma
  | ':' => some .colon
  | '[' => some .openBracket
  | ']' => some .closeBracket
  | _ => none

-- The comparison that begins with c, if the equals sign follows at once.
def comparisonFrom? (c : Char) (cs : List Char) : Option (Reading Char Kind cs.length) :=
  match cs with
  | '=' :: rest => (comparison? c).map (Reading.ofHead · '=' rest)
  | _ => none

def symbolFrom (c : Char) (rest : List Char) : Reading Char Kind (c :: rest).length :=
  match punctuation? c with
  | some kind => .ofHead kind c rest
  | none =>
      match comparisonFrom? c rest with
      | some read => read.weaken
      | none => .ofHead (.delim c) c rest

-- A name, or a function when a parenthesis follows at once.
def nameKind (value cs : List Char) : Reading Char Kind (cs.length + 1) :=
  match cs with
  | '(' :: rest => (Reading.ofHead (.function (String.ofList value)) '(' rest).weaken
  | cs => .ofNone (.ident (String.ofList value)) cs

def kindFrom (c : Char) (rest : List Char) : Result Kind (c :: rest).length :=
  if Text.isBlank c then (skipBlanks rest).map (·.map fun _ => .blank)
  else if c = '"' ∨ c = '\'' then
    match quoted c rest with
    | none => .error ⟨.unterminatedString, c :: rest⟩
    | some read => .ok (read.map (.string <| String.ofList ·)).weaken
  else if c = '#' ∧ (rest.head?.any isNameChar || startsEscape rest) then
    (name rest).map (·.map fun value => .hash (String.ofList value) (startsName rest))
  else if c.isDigit then
    .ok ((Reading.takeWhile Char.isDigit rest).map fun more => .number (String.ofList (c :: more)))
  else if startsName (c :: rest) then do
    let value ← nameFrom c rest
    return value.continuedBy (nameKind value.value value.rest)
  else if c = '\\' then .error ⟨.invalidEscape, c :: rest⟩
  else .ok (symbolFrom c rest)

def kind? (cs : List Char) : Except Lapse (Option (Reading Char Kind cs.length)) :=
  match cs with
  | [] => .ok none
  | c :: rest => (kindFrom c rest).map some

-- The tokens of the text still ahead, whose first byte is at offset.
def scanFrom (offset : Nat) (cs : List Char) : Except Lapse (List Token) :=
  match skipComments cs with
  | .error lapse => .error lapse
  | .ok gap =>
      match kind? gap.rest with
      | .error lapse => .error lapse
      | .ok none => .ok []
      | .ok (some read) =>
          let start := offset + (Text.byteSize cs - Text.byteSize gap.rest)
          let lexeme := gap.rest.take (gap.rest.length - read.rest.length)
          match scanFrom (start + Text.byteSize lexeme) read.rest with
          | .error lapse => .error lapse
          | .ok tokens => .ok (⟨read.value, start, lexeme⟩ :: tokens)
termination_by cs.length
decreasing_by exact Nat.lt_of_lt_of_le read.within (Nat.le_of_lt_succ gap.within)

def scan (text : String) : Except SelectorError (List Token) :=
  match scanFrom 0 text.toList with
  | .ok tokens => .ok tokens
  | .error lapse =>
      .error (.malformed (Text.byteSize text.toList - Text.byteSize lapse.ahead) lapse.fault)

-- The tokens of a text, closed by the one for its end.
def tokenize (text : String) : Except SelectorError (List Token) := do
  let tokens ← scan text
  return tokens ++ [finish (Text.byteSize text.toList)]

end CssQuery.Token
