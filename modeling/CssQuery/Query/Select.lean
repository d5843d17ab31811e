import CssQuery.Query.Match
import CssQuery.Text.Quoted

namespace CssQuery

-- Asking a query of no selectors is a mistake of whoever built it. Queries that
-- come from a text always have one.
inductive QueryError where
  | empty (source : String)
  deriving DecidableEq, Repr

def QueryError.message : QueryError → String
  | empty source => s!"compiled query {Text.quoted source} has no selectors to match"

inductive SelectMode where
  | all
  | first
  deriving DecidableEq, Repr

-- Drops repeated roots and those below other roots, and sorts the rest, so that
-- what is below them comes out in document order.
def Tree.topmost (tree : Tree) (roots : List Node) : List Node :=
  tree.sort (roots.eraseDups.filter fun root => !(tree.ancestors root).any (· ∈ roots))

-- The elements that the index of a tree gives for the ids, as far as they are
-- below a root. There are none to give if the index is missing.
def Tree.lookup? (tree : Tree) (roots : List Node) (ids : List String) : Option (List Node) := do
  let found ← ids.mapM tree.elementsWithId
  return tree.sort
    (found.flatten.filter fun node => (tree.ancestors node).any (· ∈ roots)).eraseDups

-- The ids that a lookup asks for, in turn. It stops at the first one that the tree
-- has no answer for.
def Tree.asked (tree : Tree) : List String → List String
  | [] => []
  | id :: more =>
      match tree.elementsWithId id with
      | none => [id]
      | some _ => id :: tree.asked more

def Tree.elementsBelow (tree : Tree) (roots : List Node) : List Node :=
  roots.flatMap fun root => (tree.descendants root).filter tree.isElement

-- Keeps what holds, up to a number of nodes if one is given.
def keepHolding (holds : Node → Matching Bool) : Option Nat → List Node → Matching (List Node)
  | some 0, _ => return []
  | _, [] => return []
  | limit, node :: more => do
      if ← holds node then return node :: (← keepHolding holds (limit.map (· - 1)) more)
      else keepHolding holds limit more

namespace Query

variable (query : Query)

def scene (tree : Tree) : Scene := ⟨tree, query.exactNames⟩

def candidates (tree : Tree) (roots : List Node) : List Node :=
  let roots := tree.topmost roots
  match query.seeds?.bind (tree.lookup? roots) with
  | some found => found
  | none => tree.elementsBelow roots

-- The matches below the roots, up to a number of them. Positions found for one
-- candidate serve for all.
def collect (tree : Tree) (roots : List Node) (limit : Option Nat) : List Node :=
  (keepHolding (anyHolds (query.scene tree) · query.chains) limit
    (query.candidates tree roots)).alone

def holdsAt (tree : Tree) (node : Node) : Bool :=
  (anyHolds (query.scene tree) node query.chains).alone

def checked {α : Type} (answer : α) : Except QueryError α :=
  if query.chains.isEmpty then .error (.empty query.source) else .ok answer

def accepts (tree : Tree) (node : Node) : Except QueryError Bool :=
  query.checked (query.holdsAt tree node)

def select (tree : Tree) (roots : List Node) (mode : SelectMode) :
    Except QueryError (List Node) :=
  query.checked (query.collect tree roots (match mode with | .all => none | .first => some 1))

def take (tree : Tree) (root : Node) (count : Nat) : Except QueryError (List Node) :=
  query.checked (query.collect tree [root] (some count))

def selectAll (tree : Tree) (root : Node) : Except QueryError (List Node) :=
  query.select tree [root] .all

def selectOne (tree : Tree) (root : Node) : Except QueryError (Option Node) :=
  (query.select tree [root] .first).map List.head?

def asked (tree : Tree) : List String := tree.asked (query.seeds?.getD [])

end Query

end CssQuery
