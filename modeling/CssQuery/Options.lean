namespace CssQuery

structure Options where
  -- Whether the names of types and attributes have to agree in case as well.
  exactNames : Bool := false
  -- How many lists of selectors may be open inside one another.
  maxNesting : Nat := 32
  -- Whether a tree may be asked for the elements of an id before it is walked.
  usesIdIndex : Bool := true
  deriving DecidableEq, Repr

end CssQuery
