import CssQuery.Text.Ascii

namespace CssQuery

-- The words of a selector. Comments are not among them: they may stand between
-- any two tokens and mean nothing.
inductive Kind where
  | ident (name : String)
  -- A name with the "(" that follows it.
  | function (name : String)
  -- "#" and a name, which need not be one that could stand alone.
  | hash (name : String) (isIdentifier : Bool)
  | string (value : String)
  | number (digits : String)
  | delim (symbol : Char)
  | includes
  | dashMatch
  | startsWith
  | endsWith
  | contains
  | blank
  | colon
  | comma
  | openBracket
  | closeBracket
  | openParen
  | closeParen
  | finish
  deriving DecidableEq, Repr

def Kind.display : Kind → String
  | .ident name => s!"identifier '{name}'"
  | .function name => s!"function '{name}('"
  | .hash name _ => s!"'#{name}'"
  | .string value => s!"string \"{value}\""
  | .number digits => s!"number '{digits}'"
  | .delim symbol => s!"'{symbol}'"
  | .includes => "'~='"
  | .dashMatch => "'|='"
  | .startsWith => "'^='"
  | .endsWith => "'$='"
  | .contains => "'*='"
  | .blank => "whitespace"
  | .colon => "':'"
  | .comma => "','"
  | .openBracket => "'['"
  | .closeBracket => "']'"
  | .openParen => "'('"
  | .closeParen => "')'"
  | .finish => "end of input"

-- A token keeps the text it was read from, so the bytes it covers follow.
structure Token where
  kind : Kind
  start : Nat
  lexeme : List Char
  deriving DecidableEq, Repr

namespace Token

def stop (token : Token) : Nat := token.start + Text.byteSize token.lexeme

def isBlank (token : Token) : Bool := token.kind == .blank

-- The end of a selector counts as a token that covers nothing.
def finish (position : Nat) : Token := ⟨.finish, position, []⟩

@[simp] theorem stop_finish (position : Nat) : (finish position).stop = position := rfl

end Token

end CssQuery
