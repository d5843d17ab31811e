import CssQuery.Options
import CssQuery.Selector

namespace CssQuery

mutual

-- One check on one element. Names are folded already where case is ignored.
inductive Test where
  | never
  | hasId (id : String)
  | localName (name : String)
  | hasClass (name : String)
  | hasAttribute (name : String) (test : AttributeTest) (letterCase : LetterCase)
  | keyword (keyword : Keyword)
  | nthChild (edge : Edge) (formula : Formula) (among : Option (List Chain))
  | nthOfType (edge : Edge) (formula : Formula)
  | noneOf (chains : List Chain)
  | anyOf (chains : List Chain)

-- What one complex selector asks of a chain of elements, the first of which is the
-- subject. Each combinator leads outward to the next element.
inductive Chain where
  | last (tests : List Test)
  | link (tests : List Test) (combinator : Combinator) (outer : Chain)

end

namespace Test

-- Tests with a low rank are cheap or rule out much, and run first.
def rank : Test → Nat
  | never => 0
  | hasId _ => 1
  | localName _ => 2
  | hasClass _ => 3
  | hasAttribute _ .exists _ => 4
  | hasAttribute .. => 5
  | keyword k => if k.isStructural then 7 else 6
  | nthChild _ _ none | nthOfType .. => 7
  | nthChild _ _ (some _) | noneOf _ | anyOf _ => 8

def id? : Test → Option String
  | hasId id => some id
  | _ => none

end Test

namespace Chain

def tests : Chain → List Test
  | last tests | link tests _ _ => tests

def combinators : Chain → List Combinator
  | last _ => []
  | link _ combinator outer => combinator :: outer.combinators

def id? (chain : Chain) : Option String := chain.tests.findSome? Test.id?

end Chain

mutual

-- Whether a check may look at where the element stands among its siblings.
def Test.needsPositions : Test → Bool
  | .keyword k => k.isStructural
  | .nthChild .. | .nthOfType .. => true
  | .noneOf chains | .anyOf chains => chainsNeedPositions chains
  | _ => false

def testsNeedPositions : List Test → Bool
  | [] => false
  | test :: more => test.needsPositions || testsNeedPositions more

def Chain.needsPositions : Chain → Bool
  | .last tests => testsNeedPositions tests
  | .link tests _ outer => testsNeedPositions tests || outer.needsPositions

def chainsNeedPositions : List Chain → Bool
  | [] => false
  | chain :: more => chain.needsPositions || chainsNeedPositions more

end

-- A selector list ready to be run, with the text it was made from.
structure Query where
  source : String
  chains : List Chain
  exactNames : Bool
  usesIdIndex : Bool

namespace Query

def needsPositions (query : Query) : Bool := chainsNeedPositions query.chains

def isSubjectOnly (query : Query) : Bool := query.chains.all (·.combinators.isEmpty)

-- The ids to look up in an index, if the index may be used and each chain names
-- one.
def seeds? (query : Query) : Option (List String) :=
  if query.usesIdIndex then query.chains.mapM Chain.id? else none

end Query

end CssQuery
