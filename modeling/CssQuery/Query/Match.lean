import CssQuery.Query.Lower
import CssQuery.Query.Positions

namespace CssQuery

structure Scene where
  tree : Tree
  exactNames : Bool

namespace Scene

variable (scene : Scene)

def namesAgree (name expected : String) : Bool :=
  if scene.exactNames then name == expected else Text.sameFolded name expected

-- The attribute of a name that is folded already where case is ignored.
def attr (node : Node) (name : String) : Option String :=
  if scene.exactNames then scene.tree.attr node name else scene.tree.foldedAttr node name

def hasAttr (node : Node) (name : String) : Bool := (scene.attr node name).isSome

-- Types that the language of documents defines are known in any case.
def isOneOf (names : List String) (node : Node) : Bool :=
  (scene.tree.localName node).any fun name => names.any (Text.sameFolded name)

def isLink : Node → Bool := scene.isOneOf ["a", "area"]

def isControl : Node → Bool :=
  scene.isOneOf ["button", "input", "select", "textarea", "optgroup", "option", "fieldset"]

-- Controls that a reader can be asked to fill in.
def isField : Node → Bool := scene.isOneOf ["input", "select", "textarea"]

def isBox (node : Node) : Bool :=
  scene.isOneOf ["input"] node && (scene.attr node "type").any fun type =>
    Text.sameFolded type "checkbox" || Text.sameFolded type "radio"

def isChecked (node : Node) : Bool :=
  (scene.isBox node && scene.hasAttr node "checked") ||
    (scene.isOneOf ["option"] node && scene.hasAttr node "selected")

def position (scope : Scope) (node : Node) : Matching SiblingPosition :=
  CssQuery.position scene.tree scene.exactNames scope node

def indexFrom (edge : Edge) (scope : Scope) (node : Node) : Matching Nat := do
  let position ← scene.position scope node
  return match edge with
    | .first => position.index
    | .last => position.fromEnd

def keywordHolds (keyword : Keyword) (node : Node) : Matching Bool :=
  let tree := scene.tree
  match keyword with
  | .root => return tree.isRoot node
  | .empty => return tree.isEmpty node
  | .firstChild => return (tree.prevElement node).isNone
  | .lastChild => return (tree.nextElement node).isNone
  | .onlyChild => return (tree.prevElement node).isNone && (tree.nextElement node).isNone
  | .firstOfType => return (← scene.indexFrom .first .sameType node) == 1
  | .lastOfType => return (← scene.indexFrom .last .sameType node) == 1
  | .onlyOfType => return (← scene.position .sameType node).count == 1
  | .link => return scene.isLink node && scene.hasAttr node "href"
  | .checked => return scene.isChecked node
  | .disabled => return scene.isControl node && scene.hasAttr node "disabled"
  | .enabled => return scene.isControl node && !scene.hasAttr node "disabled"
  | .required => return scene.isField node && scene.hasAttr node "required"
  | .optional => return scene.isField node && !scene.hasAttr node "required"

end Scene

-- How the search for a chain of elements ended. A failure tells which other
-- elements are still worth a try.
inductive Outcome where
  | found
  -- Another element for the nearest link may succeed.
  | retry
  -- Only an ancestor of the elements tried may succeed.
  | retryAbove
  -- No other element can succeed.
  | hopeless
  deriving DecidableEq, Repr

-- The elements that a combinator leads to, nearest first.
def Tree.reached (tree : Tree) : Combinator → Node → List Node
  | .child, node => (tree.parentElement node).toList
  | .descendant, node => tree.ancestorElements node
  | .nextSibling, node => (tree.prevElement node).toList
  | .subsequentSibling, node => tree.precedingElements node

-- What it means that a combinator leads to no more elements.
def Combinator.exhausted : Combinator → Outcome
  | .nextSibling | .subsequentSibling => .retryAbove
  | .child | .descendant => .hopeless

-- Whether a search goes on after one candidate, and how it ends if not.
def Combinator.settle? : Combinator → Outcome → Option Outcome
  | _, .found => some .found
  | _, .hopeless => some .hopeless
  | .nextSibling, outcome => some outcome
  | .subsequentSibling, .retryAbove => some .retryAbove
  | .child, _ => some .retryAbove
  | _, _ => none

-- Tries candidates in turn until the outcome is settled.
def search (combinator : Combinator) (attempt : Node → Matching Outcome) :
    List Node → Matching Outcome
  | [] => return combinator.exhausted
  | candidate :: more => do
      match combinator.settle? (← attempt candidate) with
      | some outcome => return outcome
      | none => search combinator attempt more

def countHolding (holds : Node → Matching Bool) : List Node → Matching Nat
  | [] => return 0
  | node :: more => do
      let one := if ← holds node then 1 else 0
      return one + (← countHolding holds more)

-- Goes on from a node that is an element and passes its tests.
def Scene.proceed (scene : Scene) (node : Node) (passes : Matching Bool)
    (next : Matching Outcome) : Matching Outcome := do
  if scene.tree.isElement node then
    if ← passes then next else return .retry
  else return .retry

mutual

def Test.holds (scene : Scene) (node : Node) : Test → Matching Bool
  | .never => return false
  | .hasId id => return scene.tree.id node == some id
  | .localName name => return (scene.tree.localName node).any (scene.namesAgree · name)
  | .hasClass name => return scene.tree.hasClass node name
  | .hasAttribute name test letterCase =>
      return (scene.attr node name).any (test.holds letterCase)
  | .keyword k => scene.keywordHolds k node
  | .nthChild edge formula none => return formula.picks (← scene.indexFrom edge .all node)
  | .nthChild edge formula (some chains) => do
      if ← anyHolds scene node chains then
        let others := match edge with
          | .first => scene.tree.precedingElements node
          | .last => scene.tree.followingElements node
        let index ← countHolding (fun other => anyHolds scene other chains) others
        return formula.picks (index + 1)
      else return false
  | .nthOfType edge formula => return formula.picks (← scene.indexFrom edge .sameType node)
  | .noneOf chains => return !(← anyHolds scene node chains)
  | .anyOf chains => anyHolds scene node chains

def allHold (scene : Scene) (node : Node) : List Test → Matching Bool
  | [] => return true
  | test :: more => do
      if ← test.holds scene node then allHold scene node more else return false

def Chain.attempt (scene : Scene) (node : Node) : Chain → Matching Outcome
  | .last tests => scene.proceed node (allHold scene node tests) (return .found)
  | .link tests combinator outer =>
      scene.proceed node (allHold scene node tests)
        (search combinator (fun candidate => outer.attempt scene candidate)
          (scene.tree.reached combinator node))

def anyHolds (scene : Scene) (node : Node) : List Chain → Matching Bool
  | [] => return false
  | chain :: more => do
      if (← chain.attempt scene node) == .found then return true
      else anyHolds scene node more

end

end CssQuery
