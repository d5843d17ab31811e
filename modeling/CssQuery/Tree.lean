import CssQuery.Text.Ascii

namespace CssQuery

abbrev Node := Nat

-- Where an element stands among its siblings, counting from one.
structure SiblingPosition where
  index : Nat
  count : Nat
  deriving DecidableEq, Repr

-- The same place counted from the last sibling. A position past the count, which
-- only a tree that tells its own positions can give, wraps in a 64-bit word.
def SiblingPosition.fromEnd (position : SiblingPosition) : Nat :=
  if position.index ≤ position.count + 1 then position.count + 1 - position.index
  else UInt64.size + (position.count + 1) - position.index

-- The nodes met by taking the same step again and again, up to a given number.
def walk (step : Node → Option Node) : Nat → Node → List Node
  | 0, _ => []
  | bound + 1, node =>
      match step node with
      | none => []
      | some next => next :: walk step bound next

-- A child that counts as content is an element or a text that shows.
def isContent (isElement : Node → Bool) (text : Node → Option String) (node : Node) : Bool :=
  isElement node || (text node).any (fun t => !(Text.trim t.toList).isEmpty)

-- A tree as selectors see it. Links and names have to be given, and the rest
-- follows from them unless a tree knows better.
structure Tree where
  -- No walk along links takes more steps than this.
  size : Nat
  isElement : Node → Bool
  localName : Node → Option String
  attr : Node → String → Option String
  text : Node → Option String
  parent : Node → Option Node
  firstChild : Node → Option Node
  nextSibling : Node → Option Node
  prevSibling : Node → Option Node
  -- The attribute of a name given in lower case.
  foldedAttr : Node → String → Option String := attr
  isRoot : Node → Bool := fun node => isElement node && !(parent node).any isElement
  id : Node → Option String := fun node => attr node "id"
  hasClass : Node → String → Bool := fun node name =>
    (attr node "class").any fun list => (Text.words list.toList).contains name.toList
  isEmpty : Node → Bool := fun node =>
    match firstChild node with
    | none => true
    | some child => !(child :: walk nextSibling size child).any (isContent isElement text)
  -- The place among all element siblings, for trees that keep it.
  elementIndex : Node → Option SiblingPosition := fun _ => none
  -- All elements of an id, for trees that have an index.
  elementsWithId : String → Option (List Node) := fun _ => none

namespace Tree

variable (tree : Tree)

def ancestors (node : Node) : List Node := walk tree.parent tree.size node

-- The nearest ancestor comes first. The chain stops at a node that is no element.
def parentElement (node : Node) : Option Node := (tree.parent node).filter tree.isElement

def ancestorElements (node : Node) : List Node := walk tree.parentElement tree.size node

def following (node : Node) : List Node := walk tree.nextSibling tree.size node

def preceding (node : Node) : List Node := walk tree.prevSibling tree.size node

def followingElements (node : Node) : List Node := (tree.following node).filter tree.isElement

def precedingElements (node : Node) : List Node := (tree.preceding node).filter tree.isElement

def nextElement (node : Node) : Option Node := (tree.followingElements node).head?

def prevElement (node : Node) : Option Node := (tree.precedingElements node).head?

-- The nodes from the first child of a parent on, or from the first node that a
-- parentless one is linked to.
def siblings (node : Node) : List Node :=
  let first :=
    match (tree.parent node).bind tree.firstChild with
    | some first => first
    | none => (tree.preceding node).getLast?.getD node
  first :: tree.following first

def elementSiblings (node : Node) : List Node := (tree.siblings node).filter tree.isElement

-- The next node that is not below the given one, if there is one below root.
def afterSubtree (root node : Node) : Option Node :=
  ((node :: tree.ancestors node).takeWhile (· != root)).findSome? tree.nextSibling

-- One step of a walk that visits each node before its children.
def preorderStep (root node : Node) : Option Node :=
  match tree.firstChild node with
  | some child => some child
  | none => tree.afterSubtree root node

def descendants (root : Node) : List Node :=
  match tree.firstChild root with
  | none => []
  | some child => child :: walk (tree.preorderStep root) tree.size child

-- The way from the topmost ancestor down to a node.
def lineage (node : Node) : List Node := (node :: tree.ancestors node).reverse

-- Siblings compare by which of them is met from the other.
def orderOfSiblings (a b : Node) : Ordering :=
  if b ∈ tree.following a then .lt
  else if b ∈ tree.preceding a then .gt
  else .eq

-- Two paths part at siblings, unless one leads to the other. Nodes of different
-- trees are not ordered.
def pathOrder : List Node → List Node → Ordering
  | x :: xs, y :: ys => if x = y then pathOrder xs ys else tree.orderOfSiblings x y
  | [], _ => .lt
  | _, [] => .gt

-- Document order puts a node before its descendants, and the subtrees of earlier
-- siblings before those of later ones.
def order (a b : Node) : Ordering :=
  if a = b then .eq else tree.pathOrder (tree.lineage a) (tree.lineage b)

-- Puts a node in its place among sorted nodes, the last of which comes first. It goes
-- before those at the end that it precedes.
def insertLast (node : Node) : List Node → List Node
  | [] => [node]
  | last :: earlier =>
      if tree.order node last = .lt then last :: insertLast node earlier
      else node :: last :: earlier

-- Sorts nodes by document order. Nodes that are not ordered stay as they are.
def sort (nodes : List Node) : List Node :=
  (nodes.foldl (fun sorted node => tree.insertLast node sorted) []).reverse

end Tree

end CssQuery
