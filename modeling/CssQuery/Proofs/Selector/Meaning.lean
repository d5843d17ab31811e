import CssQuery.Dom
import CssQuery.Proofs.Selector.Comparison
import CssQuery.Proofs.Selector.Picks
import CssQuery.Selector
import Mathlib.Data.Set.Card
import Mathlib.Logic.Relation

namespace CssQuery

-- Names that are equal, up to case unless they have to be exact.
def SameName (exactNames : Bool) (a b : String) : Prop :=
  if exactNames then a = b else Text.fold a = Text.fold b

-- What attributes hold under a name. Where case is ignored, a name in lower case counts before
-- those that only fold to it, and of those the first one that comes by.
def Attributes.Holds (attrs : Attributes) (exactNames : Bool) (name value : String) : Prop :=
  if exactNames then (name, value) ∈ attrs.pairs
  else (Text.fold name, value) ∈ attrs.pairs ∨
    (∀ pair ∈ attrs.pairs, pair.1 ≠ Text.fold name) ∧ ∃ before other after,
      attrs.pairs = before ++ (other, value) :: after ∧ SameName false other name ∧
      ∀ pair ∈ before, ¬ SameName false pair.1 name

-- What may stand in an element that counts as empty.
def Content.Blank : Content → Prop
  | .text content => ∀ c ∈ content.toList, Text.isBlank c = true
  | .comment _ => True
  | .document | .element .. => False

namespace Dom

variable (dom : Dom)

def ParentElement (node parent : Node) : Prop :=
  dom.parent node = some parent ∧ dom.isElement parent = true

-- An element that stands before the given node in the list of children of a node.
def ElementBefore (node x : Node) : Prop :=
  dom.isElement x = true ∧ ∃ p, [x, node].Sublist (dom.children p)

def ElementAfter (node x : Node) : Prop :=
  dom.isElement x = true ∧ ∃ p, [node, x].Sublist (dom.children p)

-- The elements that a position counts from one end up to a node.
def ElementAside : Edge → Node → Node → Prop
  | .first => dom.ElementBefore
  | .last => dom.ElementAfter

def SameType (exactNames : Bool) (a b : Node) : Prop :=
  ∃ s t, dom.localName a = some s ∧ dom.localName b = some t ∧ SameName exactNames s t

def HasType (names : List String) (node : Node) : Prop :=
  ∃ type, dom.localName node = some type ∧ ∃ name ∈ names, SameName false type name

-- The value that an element has under the name of an attribute.
def AttributeIs (exactNames : Bool) (name : String) (node : Node) (value : String) : Prop :=
  ∃ tag attrs, dom.element? node = some (tag, attrs) ∧ attrs.Holds exactNames name value

def HasAttribute (exactNames : Bool) (name : String) (node : Node) : Prop :=
  ∃ tag attrs, dom.element? node = some (tag, attrs) ∧
    ∃ pair ∈ attrs.pairs, SameName exactNames pair.1 name

end Dom

-- How the next element on the left of a combinator lies to the one on its right.
def Combinator.Relates (dom : Dom) : Combinator → Node → Node → Prop
  | .child, node, outer => dom.ParentElement node outer
  | .descendant, node, outer => Relation.TransGen dom.ParentElement node outer
  | .nextSibling, node, outer =>
      dom.ElementBefore node outer ∧
        ∀ x, dom.ElementBefore node x → ¬ dom.ElementAfter outer x
  | .subsequentSibling, node, outer => dom.ElementBefore node outer

def Keyword.Holds (dom : Dom) (exactNames : Bool) (node : Node) : Keyword → Prop
  | .root => ¬ ∃ p, dom.ParentElement node p
  | .empty => ∀ child ∈ dom.children node, ∃ content, dom.content? child = some content ∧
      content.Blank
  | .firstChild => ¬ ∃ x, dom.ElementBefore node x
  | .lastChild => ¬ ∃ x, dom.ElementAfter node x
  | .onlyChild => ¬ ∃ x, dom.ElementBefore node x ∨ dom.ElementAfter node x
  | .firstOfType => ¬ ∃ x, dom.ElementBefore node x ∧ dom.SameType exactNames x node
  | .lastOfType => ¬ ∃ x, dom.ElementAfter node x ∧ dom.SameType exactNames x node
  | .onlyOfType => ¬ ∃ x, (dom.ElementBefore node x ∨ dom.ElementAfter node x) ∧
      dom.SameType exactNames x node
  | .link => dom.HasType ["a", "area"] node ∧ dom.HasAttribute exactNames "href" node
  | .checked =>
      (dom.HasType ["input"] node ∧ dom.HasAttribute exactNames "checked" node ∧
        ∃ type, dom.AttributeIs exactNames "type" node type ∧
          (SameName false type "checkbox" ∨ SameName false type "radio")) ∨
      (dom.HasType ["option"] node ∧ dom.HasAttribute exactNames "selected" node)
  | .disabled => dom.HasType controls node ∧ dom.HasAttribute exactNames "disabled" node
  | .enabled => dom.HasType controls node ∧ ¬ dom.HasAttribute exactNames "disabled" node
  | .required => dom.HasType fields node ∧ dom.HasAttribute exactNames "required" node
  | .optional => dom.HasType fields node ∧ ¬ dom.HasAttribute exactNames "required" node
where
  controls := ["button", "input", "select", "textarea", "optgroup", "option", "fieldset"]
  fields := ["input", "select", "textarea"]

section Holds

variable (dom : Dom) (exactNames : Bool)

mutual

-- What a simple selector says about an element.
def Simple.Holds (node : Node) : Simple → Prop
  | .universal => True
  | .never => False
  | .tag name => ∃ type, dom.localName node = some type ∧ SameName exactNames type name
  | .hasId id => dom.AttributeIs true "id" node id
  | .hasClass name => name ≠ "" ∧ ∃ list, dom.AttributeIs true "class" node list ∧
      IsWord name.toList list.toList
  | .hasAttribute selector => ∃ value, dom.AttributeIs exactNames selector.name node value ∧
      selector.test.Says selector.letterCase value
  | .keyword k => k.Holds dom exactNames node
  | .nthChild edge formula none =>
      formula.Selects (1 + {x | dom.ElementAside edge node x}.ncard)
  | .nthChild edge formula (some selectors) =>
      listHolds node selectors ∧
        formula.Selects (1 + {x | dom.ElementAside edge node x ∧ listHolds x selectors}.ncard)
  | .nthOfType edge formula =>
      formula.Selects (1 + {x | dom.ElementAside edge node x ∧
        dom.SameType exactNames x node}.ncard)
  | .noneOf selectors => ¬ listHolds node selectors
  | .anyOf selectors => listHolds node selectors

def compoundHolds (node : Node) : List Simple → Prop
  | [] => True
  | simple :: more => simple.Holds node ∧ compoundHolds node more

-- Some member of the list leads from the node through elements that satisfy its compounds.
def listHolds (node : Node) : List Complex → Prop
  | [] => False
  | complex :: more => complex.Holds node ∨ listHolds node more

def Complex.Holds (node : Node) : Complex → Prop
  | ⟨subject, links⟩ =>
      dom.isElement node = true ∧ compoundHolds node subject ∧ linksHold node links

def linksHold (node : Node) : List Link → Prop
  | [] => True
  | ⟨combinator, compound⟩ :: more => ∃ outer, combinator.Relates dom node outer ∧
      dom.isElement outer = true ∧ compoundHolds outer compound ∧ linksHold outer more

end

end Holds

end CssQuery
