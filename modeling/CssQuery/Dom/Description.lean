import CssQuery.Dom
import CssQuery.Json

namespace CssQuery

inductive Description where
  | element (tag : String) (attrs : SortedAttributes) (children : List Description)
  | text (text : String)
  | comment (text : String)

namespace Description

mutual

def toJson : Description → Json
  | .element tag attrs children =>
      .object [("tag", .string tag),
        ("attrs", .object (attrs.pairs.map fun (name, value) => (name, .string value))),
        ("children", .array (listToJson children))]
  | .text value => .object [("text", .string value)]
  | .comment value => .object [("comment", .string value)]

def listToJson : List Description → List Json
  | [] => []
  | description :: more => description.toJson :: listToJson more

end

def fieldsNamed (name : String) (fields : List (String × Json)) : List Json :=
  (fields.filter (·.1 == name)).map (·.2)

-- A field that has to be there once, and to be a string.
def stringField? (name : String) (fields : List (String × Json)) : Option String :=
  match fieldsNamed name fields with
  | [.string value] => some value
  | _ => none

def attribute? : String × Json → Option (String × String)
  | (name, .string value) => some (name, value)
  | _ => none

-- Attributes may be missing, but not twice there.
def attributes? (fields : List (String × Json)) : Option SortedAttributes :=
  match fieldsNamed "attrs" fields with
  | [] => some .empty
  | [.object pairs] => (pairs.mapM attribute?).map SortedAttributes.ofList
  | _ => none

-- An element, given what its fields named children hold.
def elementOf? (fields : List (String × Json)) (children : List (Option (List Description))) :
    Option Description := do
  let tag ← stringField? "tag" fields
  let attrs ← attributes? fields
  match children with
  | [] => return element tag attrs []
  | [some children] => return element tag attrs children
  | _ => none

mutual

-- The first of the three shapes that fits: element, text, comment. Fields that a
-- shape lacks are ignored.
def ofJson? : Json → Option Description
  | .object fields =>
      elementOf? fields (childrenFields fields) <|>
        (stringField? "text" fields).map text <|>
        (stringField? "comment" fields).map comment
  | _ => none

def listOfJson? : List Json → Option (List Description)
  | [] => some []
  | item :: more =>
      match ofJson? item, listOfJson? more with
      | some first, some rest => some (first :: rest)
      | _, _ => none

-- The lists under the fields named children, where they are lists at all.
def childrenFields : List (String × Json) → List (Option (List Description))
  | [] => []
  | (name, .array items) :: more =>
      if name = "children" then listOfJson? items :: childrenFields more else childrenFields more
  | (name, _) :: more =>
      if name = "children" then none :: childrenFields more else childrenFields more

end

-- A document is written as the list of its nodes, or as its only node.
def documentOfJson? : Json → Option (List Description)
  | .array items => listOfJson? items
  | value => (ofJson? value).map ([·])

end Description

namespace Dom

-- The description of a node that lies no deeper than given. The document has none.
def describeWithin (dom : Dom) : Nat → Node → Option Description
  | 0, _ => none
  | depth + 1, node =>
      match dom.content? node with
      | some (.element tag attrs) =>
          some (.element tag attrs.sort ((dom.children node).filterMap (dom.describeWithin depth)))
      | some (.text text) => some (.text text)
      | some (.comment text) => some (.comment text)
      | some .document | none => none

def describe (dom : Dom) (node : Node) : Option Description := dom.describeWithin dom.size node

end Dom

end CssQuery
