import CssQuery.Text.Ascii

namespace CssQuery

inductive Keyword where
  | root
  | empty
  | firstChild
  | lastChild
  | onlyChild
  | firstOfType
  | lastOfType
  | onlyOfType
  | link
  | checked
  | disabled
  | enabled
  | required
  | optional
  deriving DecidableEq, Repr

namespace Keyword

def all : List Keyword :=
  [root, empty, firstChild, lastChild, onlyChild, firstOfType, lastOfType, onlyOfType, link,
    checked, disabled, enabled, required, optional]

def name : Keyword → String
  | root => "root"
  | empty => "empty"
  | firstChild => "first-child"
  | lastChild => "last-child"
  | onlyChild => "only-child"
  | firstOfType => "first-of-type"
  | lastOfType => "last-of-type"
  | onlyOfType => "only-of-type"
  | link => "link"
  | checked => "checked"
  | disabled => "disabled"
  | enabled => "enabled"
  | required => "required"
  | optional => "optional"

-- Names are read without regard to case. A link that was never followed is a
-- link, so both names mean the same.
def ofName? (text : String) : Option Keyword :=
  if Text.sameFolded text "any-link" then some link
  else all.find? (Text.sameFolded text ·.name)

def isStructural : Keyword → Bool
  | firstChild | lastChild | onlyChild | firstOfType | lastOfType | onlyOfType => true
  | _ => false

end Keyword

-- Pseudo-classes about a reader who looks at the document. In a tree that nobody
-- looks at they never hold.
def isDynamicName (text : String) : Bool :=
  ["hover", "active", "focus", "focus-visible", "focus-within", "visited", "target",
    "target-within"].any (Text.sameFolded text)

-- Pseudo-elements that may be written with a single colon.
def isLegacyPseudoElement (text : String) : Bool :=
  ["before", "after", "first-line", "first-letter"].any (Text.sameFolded text)

-- Whether positions are counted from the first sibling or from the last.
inductive Edge where
  | first
  | last
  deriving DecidableEq, Repr

inductive PseudoFunction where
  | nthChild (edge : Edge)
  | nthOfType (edge : Edge)
  | noneOf
  | anyOf
  | has
  deriving DecidableEq, Repr

def PseudoFunction.ofName? (text : String) : Option PseudoFunction :=
  match Text.fold text with
  | "nth-child" => some (.nthChild .first)
  | "nth-last-child" => some (.nthChild .last)
  | "nth-of-type" => some (.nthOfType .first)
  | "nth-last-of-type" => some (.nthOfType .last)
  | "not" => some .noneOf
  | "is" | "where" | "matches" | "any" => some .anyOf
  | "has" => some .has
  | _ => none

end CssQuery
