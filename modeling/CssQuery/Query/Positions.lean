import CssQuery.Tree
import Std.Data.HashMap

namespace CssQuery

inductive Scope where
  | all
  | sameType
  deriving DecidableEq, Hashable, Repr

-- Positions that were found while matching against one tree. Finding the position
-- of one element finds those of its siblings as well.
abbrev Positions := Std.HashMap (Node × Scope) SiblingPosition

abbrev Matching := StateM Positions

-- The outcome of matching that starts with no position known.
def Matching.alone {α : Type} (matching : Matching α) : α := (matching.run {}).1

-- Types that differ in case only are the same unless names have to be exact.
def foldName (exactNames : Bool) (name : String) : String :=
  if exactNames then name else Text.fold name

def typeName (tree : Tree) (exactNames : Bool) (node : Node) : String :=
  foldName exactNames ((tree.localName node).getD "")

def places (nodes : List Node) : List (Node × SiblingPosition) :=
  nodes.mapIdx fun i node => (node, ⟨i + 1, nodes.length⟩)

def typePlaces (typeOf : Node → String) (nodes : List Node) : List (Node × SiblingPosition) :=
  let types := nodes.map typeOf
  (nodes.zip types).mapIdx fun i (node, type) =>
    (node, ⟨(types.take i).count type + 1, types.count type⟩)

def siblingPlaces (tree : Tree) (exactNames : Bool) (scope : Scope) (node : Node) :
    List (Node × SiblingPosition) :=
  match scope with
  | .all => places (tree.elementSiblings node)
  | .sameType => typePlaces (typeName tree exactNames) (tree.elementSiblings node)

-- A node that its own siblings lack is the first of them, or the only one of its
-- type.
def ownPlace (scope : Scope) (node : Node) (found : List (Node × SiblingPosition)) :
    SiblingPosition :=
  match found.findRev? (·.1 == node) with
  | some (_, position) => position
  | none =>
      match scope with
      | .all => ⟨1, found.length⟩
      | .sameType => ⟨1, 1⟩

def Positions.record (known : Positions) (scope : Scope) (found : List (Node × SiblingPosition)) :
    Positions :=
  found.foldl (fun known (node, position) => known.insert (node, scope) position) known

-- The position that a tree keeps itself counts before any other.
def toldPosition? (tree : Tree) : Scope → Node → Option SiblingPosition
  | .all, node => tree.elementIndex node
  | .sameType, _ => none

def position (tree : Tree) (exactNames : Bool) (scope : Scope) (node : Node) :
    Matching SiblingPosition := fun known =>
  match toldPosition? tree scope node with
  | some position => (position, known)
  | none =>
      match known[(node, scope)]? with
      | some position => (position, known)
      | none =>
          let found := siblingPlaces tree exactNames scope node
          (ownPlace scope node found, known.record scope found)

end CssQuery
