import CssQuery.Query
import CssQuery.Query.Positions
import CssQuery.Selector.Reader.List

namespace CssQuery.Query

-- Tests of the same rank keep the order in which they were written.
def sortTests (tests : List Test) : List Test :=
  tests.mergeSort fun a b => a.rank ≤ b.rank

mutual

-- The test for a simple selector. The universal selector needs none.
def lowerSimple? (exactNames : Bool) : Simple → Option Test
  | .universal => none
  | .never => some .never
  | .tag name => some (.localName (foldName exactNames name))
  | .hasId id => some (.hasId id)
  | .hasClass name => some (.hasClass name)
  | .hasAttribute selector =>
      some (.hasAttribute (foldName exactNames selector.name) selector.test selector.letterCase)
  | .keyword k => some (.keyword k)
  | .nthChild edge formula none => some (.nthChild edge formula none)
  | .nthChild edge formula (some selectors) =>
      some (.nthChild edge formula (some (lowerList exactNames selectors)))
  | .nthOfType edge formula => some (.nthOfType edge formula)
  | .noneOf selectors => some (.noneOf (lowerList exactNames selectors))
  | .anyOf selectors => some (.anyOf (lowerList exactNames selectors))

def lowerSimples (exactNames : Bool) : List Simple → List Test
  | [] => []
  | simple :: more =>
      match lowerSimple? exactNames simple with
      | none => lowerSimples exactNames more
      | some test => test :: lowerSimples exactNames more

def lowerList (exactNames : Bool) : List Complex → List Chain
  | [] => []
  | complex :: more => lowerComplex exactNames complex :: lowerList exactNames more

def lowerComplex (exactNames : Bool) : Complex → Chain
  | ⟨subject, links⟩ => lowerLinks exactNames (sortTests (lowerSimples exactNames subject)) links

-- The chain from an element with the given tests outward.
def lowerLinks (exactNames : Bool) (tests : List Test) : List Link → Chain
  | [] => .last tests
  | ⟨combinator, compound⟩ :: more =>
      .link tests combinator
        (lowerLinks exactNames (sortTests (lowerSimples exactNames compound)) more)

end

def ofSelectors (source : String) (selectors : SelectorList) (options : Options) : Query where
  source
  chains := lowerList options.exactNames selectors
  exactNames := options.exactNames
  usesIdIndex := options.usesIdIndex

def compile (text : String) (options : Options) : Except SelectorError Query :=
  (SelectorList.ofText text options.maxNesting).map (ofSelectors text · options)

end CssQuery.Query
