import CssQuery.Json
import CssQuery.Selector

namespace CssQuery

def Combinator.label : Combinator → String
  | .descendant => "Descendant"
  | .child => "Child"
  | .nextSibling => "NextSibling"
  | .subsequentSibling => "SubsequentSibling"

def Keyword.label : Keyword → String
  | .root => "Root"
  | .empty => "Empty"
  | .firstChild => "FirstChild"
  | .lastChild => "LastChild"
  | .onlyChild => "OnlyChild"
  | .firstOfType => "FirstOfType"
  | .lastOfType => "LastOfType"
  | .onlyOfType => "OnlyOfType"
  | .link => "Link"
  | .checked => "Checked"
  | .disabled => "Disabled"
  | .enabled => "Enabled"
  | .required => "Required"
  | .optional => "Optional"

def Comparison.label : Comparison → String
  | .equals => "Equals"
  | .includes => "Includes"
  | .dashMatch => "DashMatch"
  | .startsWith => "PrefixMatch"
  | .endsWith => "SuffixMatch"
  | .contains => "SubstringMatch"

def LetterCase.label : LetterCase → String
  | .exact => "CaseSensitive"
  | .folded => "AsciiCaseInsensitive"

def Json.tagged (label : String) (value : Json) : Json := .object [(label, value)]

def Formula.toJson (f : Formula) : Json :=
  .object [("a", .int f.step.toInt), ("b", .int f.offset.toInt)]

def AttributeTest.toJson : AttributeTest → Json
  | .exists => .string "Exists"
  | .compare comparison value => .tagged comparison.label (.string value)

def AttributeSelector.toJson (selector : AttributeSelector) : Json :=
  .object [("name", .string selector.name), ("operation", selector.test.toJson),
    ("case", .string selector.letterCase.label)]

def nthChildLabel : Edge → String
  | .first => "NthChild"
  | .last => "NthLastChild"

def nthOfTypeLabel : Edge → String
  | .first => "NthOfType"
  | .last => "NthLastOfType"

-- A compound and a list are objects of a single field.
def compoundJson (simples : List Json) : Json := .object [("simple_selectors", .array simples)]

def listJson (selectors : List Json) : Json := .object [("selectors", .array selectors)]

mutual

def Simple.toJson : Simple → Json
  | .tag name => .tagged "Type" (.string name)
  | .universal => .string "Universal"
  | .hasClass name => .tagged "Class" (.string name)
  | .hasId name => .tagged "Id" (.string name)
  | .hasAttribute selector => .tagged "Attribute" selector.toJson
  | .keyword keyword => .tagged "PseudoClass" (.tagged "Keyword" (.string keyword.label))
  | .nthChild edge formula none =>
      .tagged "PseudoClass" (.tagged (nthChildLabel edge)
        (.object [("formula", formula.toJson), ("of", .null)]))
  | .nthChild edge formula (some selectors) =>
      .tagged "PseudoClass" (.tagged (nthChildLabel edge)
        (.object [("formula", formula.toJson), ("of", listJson (complexesJson selectors))]))
  | .nthOfType edge formula =>
      .tagged "PseudoClass" (.tagged (nthOfTypeLabel edge) formula.toJson)
  | .noneOf selectors =>
      .tagged "PseudoClass" (.tagged "Not" (listJson (complexesJson selectors)))
  | .anyOf selectors =>
      .tagged "PseudoClass" (.tagged "Is" (listJson (complexesJson selectors)))
  | .never => .string "NeverMatch"

def simplesJson : List Simple → List Json
  | [] => []
  | simple :: more => simple.toJson :: simplesJson more

def complexesJson : List Complex → List Json
  | [] => []
  | complex :: more => complex.toJson :: complexesJson more

def Complex.toJson : Complex → Json
  | ⟨subject, links⟩ =>
      .object [("subject", compoundJson (simplesJson subject)), ("combinators",
        .array (linksJson links))]

def linksJson : List Link → List Json
  | [] => []
  | link :: more => link.toJson :: linksJson more

def Link.toJson : Link → Json
  | ⟨combinator, compound⟩ =>
      .array [.string combinator.label, compoundJson (simplesJson compound)]

end

def SelectorList.toJson (selectors : SelectorList) : Json := listJson (complexesJson selectors)

end CssQuery
