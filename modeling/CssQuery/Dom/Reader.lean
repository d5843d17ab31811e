import CssQuery.Dom.Load
import CssQuery.Json.Reader

namespace CssQuery

-- How the reader below words what is wrong with a text.
def Json.Fault.message : Json.Fault → String
  | .unfinished => "the text ends early"
  | .malformed => "the text is not JSON"
  | .mismatched => "data did not match any variant of untagged enum Document"

namespace Dom

-- A reader of descriptions to run with. What the text describes is settled before what may
-- follow it.
def readDescriptions (text : String) : Except Json.Error (List Description) :=
  read.mapError fun fault => ⟨fault, fault.message⟩
where
  read : Except Json.Fault (List Description) := do
    let read ← Json.Reader.value .keep Json.Reader.maxOpen text.toList
    match Description.documentOfJson? read.value with
    | none => throw .mismatched
    | some descriptions =>
        if (Json.Reader.skipBlanks read.rest).isEmpty then return descriptions
        else throw .malformed

def ofText (text : String) : Except LoadError Dom := load .byName readDescriptions text

end Dom

end CssQuery
