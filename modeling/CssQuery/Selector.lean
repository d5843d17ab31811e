import CssQuery.Selector.Attribute
import CssQuery.Selector.Formula
import CssQuery.Selector.Keyword

namespace CssQuery

-- How the element on the left of a combinator lies to the one on its right.
inductive Combinator where
  | descendant
  | child
  | nextSibling
  | subsequentSibling
  deriving DecidableEq, Repr

def Combinator.symbol : Combinator → Char
  | descendant => ' '
  | child => '>'
  | nextSibling => '+'
  | subsequentSibling => '~'

mutual

inductive Simple where
  | tag (name : String)
  | universal
  | hasClass (name : String)
  | hasId (name : String)
  | hasAttribute (selector : AttributeSelector)
  | keyword (keyword : Keyword)
  | nthChild (edge : Edge) (formula : Formula) (among : Option (List Complex))
  | nthOfType (edge : Edge) (formula : Formula)
  | noneOf (selectors : List Complex)
  | anyOf (selectors : List Complex)
  | never

-- The subject is the last compound as written. The links lead from there to the
-- left, so the nearest one comes first.
structure Complex where
  subject : List Simple
  links : List Link

structure Link where
  combinator : Combinator
  compound : List Simple

end

-- All conditions of a compound are asked of the same element.
abbrev Compound := List Simple

-- A list selects what any of its members selects.
abbrev SelectorList := List Complex

end CssQuery
