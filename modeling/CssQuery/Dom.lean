import CssQuery.Dom.Attributes
import CssQuery.Tree
import Std.Data.HashMap

namespace CssQuery

inductive Content where
  | document
  | element (tag : String) (attrs : Attributes)
  | text (text : String)
  | comment (text : String)

-- A node with its links. It names other nodes by number.
structure NodeRecord where
  content : Content
  parent : Option Node := none
  children : List Node := []
  nextSibling : Option Node := none
  prevSibling : Option Node := none

abbrev IdIndex := Std.HashMap String (List Node)

-- A document with all nodes ever made for it. Node 0 is the document itself, and
-- new nodes take the next number.
structure Dom where
  records : Array NodeRecord
  index : Option IdIndex := none

namespace Dom

def root : Node := 0

def new : Dom where
  records := #[⟨.document, none, [], none, none⟩]

variable (dom : Dom)

def size : Nat := dom.records.size

def get? (node : Node) : Option NodeRecord := dom.records[node]?

def content? (node : Node) : Option Content := (dom.get? node).map (·.content)

def parent (node : Node) : Option Node := (dom.get? node).bind (·.parent)

def children (node : Node) : List Node := ((dom.get? node).map (·.children)).getD []

def firstChild (node : Node) : Option Node := (dom.children node).head?

def nextSibling (node : Node) : Option Node := (dom.get? node).bind (·.nextSibling)

def prevSibling (node : Node) : Option Node := (dom.get? node).bind (·.prevSibling)

def element? (node : Node) : Option (String × Attributes) :=
  match dom.content? node with
  | some (.element tag attrs) => some (tag, attrs)
  | _ => none

def isElement (node : Node) : Bool := (dom.element? node).isSome

def localName (node : Node) : Option String := (dom.element? node).map (·.1)

def attr (node : Node) (name : String) : Option String :=
  (dom.element? node).bind (·.2.get? name)

def foldedAttr (node : Node) (name : String) : Option String :=
  (dom.element? node).bind (·.2.getFolded? name)

def text (node : Node) : Option String :=
  match dom.content? node with
  | some (.text text) => some text
  | _ => none

def id (node : Node) : Option String := dom.attr node "id"

-- The classes of an element are the words of its class attribute.
def classes (node : Node) : List String :=
  match dom.attr node "class" with
  | none => []
  | some list => (Text.words list.toList).map String.ofList

def hasClass (node : Node) (name : String) : Bool := (dom.classes node).contains name

-- Texts of blanks and comments leave an element empty.
def isBlankContent : Content → Bool
  | .text text => (Text.trim text.toList).isEmpty
  | .comment _ => true
  | _ => false

def isEmpty (node : Node) : Bool :=
  (dom.children node).all fun child => (dom.content? child).any isBlankContent

def create (content : Content) : Node × Dom :=
  (dom.size, { dom with records := dom.records.push ⟨content, none, [], none, none⟩ })

-- Links a node behind the last child of another. Links it had before stay, except
-- where the new ones take their place. What was indexed is forgotten.
def link (parent child : Node) : Dom :=
  let last := (dom.children parent).getLast?
  let records := dom.records.modify parent fun r => { r with children := r.children ++ [child] }
  let records := records.modify child fun r => { r with parent := some parent }
  match last with
  | none => { records }
  | some last =>
      let records := records.modify last fun r => { r with nextSibling := some child }
      { records := records.modify child fun r => { r with prevSibling := some last } }

def append? (parent child : Node) : Option Dom :=
  if parent < dom.size ∧ child < dom.size then some (dom.link parent child) else none

-- Makes a node and links it, if its parent exists.
def appendNew? (parent : Node) (content : Content) : Option (Node × Dom) :=
  let (node, dom) := dom.create content
  (dom.append? parent node).map (node, ·)

inductive AttributeEdit where
  | noSuchNode
  | notAnElement
  | replaced (old : Option String)

-- Whoever asks to change a node may change its id, so the index goes in any case.
def setAttribute (node : Node) (name value : String) : AttributeEdit × Dom :=
  let dom := { dom with index := none }
  match dom.content? node with
  | none => (.noSuchNode, dom)
  | some (.element tag attrs) =>
      (.replaced (attrs.get? name), { dom with records := dom.records.modify node fun r =>
        { r with content := .element tag (attrs.insert name value) } })
  | some _ => (.notAnElement, dom)

def ancestors (node : Node) : List Node := walk dom.parent dom.size node

def isDescendantOf (node ancestor : Node) : Bool := ancestor ∈ dom.ancestors node

-- All nodes below one, each before its own descendants, down to a given depth.
def descendantsWithin : Nat → Node → List Node
  | 0, _ => []
  | depth + 1, node =>
      (dom.children node).flatMap fun child => child :: descendantsWithin depth child

-- No node lies deeper than there are nodes.
def descendants (node : Node) : List Node := dom.descendantsWithin dom.size node

def documentElement : Option Node := (dom.children root).find? dom.isElement

def indexElement (index : IdIndex) (node : Node) : IdIndex :=
  match dom.id node with
  | none => index
  | some id => index.alter id fun found => some (found.getD [] ++ [node])

-- Indexes the elements that are part of the document.
def buildIndex : Dom :=
  { dom with index := some ((dom.descendants root).foldl dom.indexElement {}) }

def hasIndex : Bool := dom.index.isSome

def elementsWithId (id : String) : Option (List Node) :=
  dom.index.map fun index => (index[id]?).getD []

def toTree : Tree where
  size := dom.size
  isElement := dom.isElement
  localName := dom.localName
  attr := dom.attr
  text := dom.text
  parent := dom.parent
  firstChild := dom.firstChild
  nextSibling := dom.nextSibling
  prevSibling := dom.prevSibling
  foldedAttr := dom.foldedAttr
  id := dom.id
  hasClass := dom.hasClass
  isEmpty := dom.isEmpty
  elementsWithId := dom.elementsWithId

-- The same document, of which only names and links are known.
def bareTree : Tree where
  size := dom.size
  isElement := dom.isElement
  localName := dom.localName
  attr := dom.attr
  text := dom.text
  parent := dom.parent
  firstChild := dom.firstChild
  nextSibling := dom.nextSibling
  prevSibling := dom.prevSibling

end Dom

end CssQuery
