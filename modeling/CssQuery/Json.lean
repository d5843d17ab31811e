namespace CssQuery

-- A JSON value. A number keeps its text, and an object keeps its fields in the
-- order they were written, repeated names included.
inductive Json where
  | null
  | bool (value : Bool)
  | number (literal : String)
  | string (value : String)
  | array (items : List Json)
  | object (fields : List (String × Json))

namespace Json

-- Why a text is no value, or a value not of the shape asked for.
inductive Fault where
  -- The text ends before the value does.
  | unfinished
  -- The text is not JSON.
  | malformed
  -- The text is JSON, but describes something else.
  | mismatched
  deriving DecidableEq, Repr

-- What a reader finds wrong with a text, and how it words it.
structure Error where
  fault : Fault
  message : String
  deriving DecidableEq, Repr

-- Where the wording does not matter an error stands for what is wrong.
instance : Coe Error Fault := ⟨Error.fault⟩

def int (i : Int) : Json := .number (toString i)

end Json

end CssQuery
