import CssQuery.Selector.Reader.Basic
import CssQuery.Text.Space

namespace CssQuery.Reader

-- The text of a formula, put together again from its tokens, so that comments and
-- escapes are gone.
structure Argument where
  text : List Char
  -- No token was of a kind that formulas lack.
  isPlain : Bool
  -- The word "of" ended the formula.
  hasOf : Bool

def piece? : Kind → Option (List Char)
  | .ident name => some name.toList
  | .number digits => some digits.toList
  | .delim symbol => some [symbol]
  | kind => if kind = .blank then some [' '] else none

def isOf : Kind → Bool
  | .ident name => Text.sameFolded name "of"
  | _ => false

def Argument.behind (argument : Argument) (t : Token) : Argument :=
  match piece? t.kind with
  | some piece => { argument with text := piece ++ argument.text }
  | none => { argument with text := t.lexeme ++ argument.text, isPlain := false }

-- Reads up to the closing parenthesis, or past the word "of" where that is
-- allowed. There is no argument if the selector ends first.
def argument (allowOf : Bool) (ts : List Token) : Option (Reading Token Argument (ts.length + 1)) :=
  match ts with
  | [] => none
  | t :: rest =>
      if t.kind = .closeParen then some (.ofNone ⟨[], true, false⟩ (t :: rest))
      else if allowOf && isOf t.kind then
        some (Reading.ofHead ⟨[], true, true⟩ t rest).weaken
      else (argument allowOf rest).map fun more => (more.map (·.behind t)).weaken

def Argument.formula? (argument : Argument) : Option Formula :=
  if argument.isPlain then Formula.ofText? (String.ofList argument.text) else none

def Argument.shown (argument : Argument) : String :=
  String.ofList (Text.trimSpace argument.text)

-- The formula of a pseudo-class whose colon stands at the given byte, and whether
-- a list of selectors follows it.
def formula (finish colon : Nat) (allowOf : Bool) (ts : List Token) :
    Result (Formula × Bool) (ts.length + 1) :=
  match argument allowOf ts with
  | none => .error (.malformed colon .unbalancedParens)
  | some read =>
      match read.value.formula? with
      | some f => .ok (read.map fun argument => (f, argument.hasOf))
      | none => .error (.malformed (nextStart finish ts) (.invalidFormula read.value.shown))

end CssQuery.Reader
