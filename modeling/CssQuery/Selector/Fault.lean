import CssQuery.Token

namespace CssQuery

inductive SyntaxFault where
  | emptySelector
  | unexpected (found : Kind)
  | unexpectedEnd
  | danglingCombinator (symbol : Char)
  | emptyCompound
  | misplacedType
  | invalidId (name : String)
  | unterminatedString
  | unterminatedComment
  | unterminatedAttribute
  | unbalancedParens
  | invalidFormula (text : String)
  | invalidEscape
  | nestedTooDeep (limit : Nat)
  deriving DecidableEq, Repr

-- Selectors that are well written but name something the engine lacks.
inductive Feature where
  | namespacePrefix
  | pseudoElement (name : String)
  -- An element such as ":before", which once had the form of a class.
  | legacyPseudoElement (name : String)
  | pseudoClass (name : String)
  | pseudoFunction (name : String)
  deriving DecidableEq, Repr

-- The position is a byte offset into the selector.
inductive SelectorError where
  | malformed (position : Nat) (fault : SyntaxFault)
  | unsupported (position : Nat) (feature : Feature)
  deriving DecidableEq, Repr

def SyntaxFault.message : SyntaxFault → String
  | .emptySelector => "empty selector"
  | .unexpected found => s!"unexpected {found.display}"
  | .unexpectedEnd => "unexpected end of input"
  | .danglingCombinator symbol => s!"expected a selector after combinator '{symbol}'"
  | .emptyCompound => "empty compound selector"
  | .misplacedType => "type selector must come first in a compound selector"
  | .invalidId name => s!"invalid id selector '#{name}'"
  | .unterminatedString => "unterminated string"
  | .unterminatedComment => "unterminated comment"
  | .unterminatedAttribute => "unterminated attribute selector"
  | .unbalancedParens => "unbalanced parentheses"
  | .invalidFormula text => s!"malformed An+B expression '{text}'"
  | .invalidEscape => "invalid escape"
  | .nestedTooDeep limit => s!"selectors nested deeper than {limit} levels"

def Feature.message : Feature → String
  | .namespacePrefix => "namespace prefix"
  | .pseudoElement name => s!"pseudo-element '::{name}'"
  | .legacyPseudoElement name => s!"pseudo-element ':{name}'"
  | .pseudoClass name => s!"pseudo-class ':{name}'"
  | .pseudoFunction name => s!"pseudo-class ':{name}()'"

namespace SelectorError

def position : SelectorError → Nat
  | malformed position _ | unsupported position _ => position

def isUnsupported : SelectorError → Bool
  | malformed .. => false
  | unsupported .. => true

def message : SelectorError → String
  | malformed position fault => s!"syntax error at position {position}: {fault.message}"
  | unsupported position feature =>
      s!"unsupported selector at position {position}: {feature.message}"

end SelectorError

end CssQuery
