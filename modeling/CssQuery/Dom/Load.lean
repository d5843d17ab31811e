import CssQuery.Dom.Description

namespace CssQuery

-- Why a text gives no document. An element without a tag is told by the way to it,
-- as places among siblings.
inductive LoadError where
  | json (error : Json.Error)
  | emptyTag (path : List Nat)
  deriving DecidableEq, Repr

namespace LoadError

def message : LoadError → String
  | json error => s!"invalid tree description: {error.message}"
  | emptyTag path =>
      let way := String.intercalate "/" (path.map toString)
      s!"element at {way} has an empty tag name"

-- The message, and that of the error behind it.
def causes : LoadError → List String
  | json error => [message (json error), error.message]
  | emptyTag path => [message (emptyTag path)]

end LoadError

-- How the maps of a document lay out the attributes they are filled with. Each keeps all
-- pairs, in an order of its own, which may be another one in the next run.
structure Layout where
  fill : Node → SortedAttributes → Attributes
  perm : ∀ node attrs, (fill node attrs).pairs.Perm attrs.pairs

-- The layout that leaves attributes in the order of their names.
def Layout.byName : Layout where
  fill _ attrs := attrs.toAttributes
  perm _ _ := .refl _

namespace Dom

def adopt (dom : Dom) (parent : Node) (content : Content) : Node × Dom :=
  let (node, dom) := dom.create content
  (node, dom.link parent node)

section Load

variable (layout : Layout)

mutual

-- Adds what is described below a parent, unless a tag in it is empty.
def grow (dom : Dom) (parent : Node) (path : List Nat) : Description → Except LoadError Dom
  | .element tag attrs children =>
      if tag.isEmpty then .error (.emptyTag path)
      else
        let (node, dom) := dom.adopt parent (.element tag (layout.fill dom.size attrs))
        growAll dom node path 0 children
  | .text text => .ok (dom.adopt parent (.text text)).2
  | .comment text => .ok (dom.adopt parent (.comment text)).2

def growAll (dom : Dom) (parent : Node) (path : List Nat) (place : Nat) :
    List Description → Except LoadError Dom
  | [] => .ok dom
  | first :: more =>
      match grow dom parent (path ++ [place]) first with
      | .error error => .error error
      | .ok dom => growAll dom parent path (place + 1) more

end

def ofDescriptions (descriptions : List Description) : Except LoadError Dom :=
  growAll layout new root [] 0 descriptions

-- The document of a text that a reader of descriptions takes in.
def load (read : String → Except Json.Error (List Description)) (text : String) :
    Except LoadError Dom := do
  let descriptions ← (read text).mapError .json
  ofDescriptions layout descriptions

end Load

end Dom

end CssQuery
