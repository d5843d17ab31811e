import CssQuery.Query.Select

namespace CssQuery

inductive Format where
  | text
  | json
  deriving DecidableEq, Repr

def Format.name : Format → String
  | text => "text"
  | json => "json"

structure QuerySettings where
  first : Bool := false
  exactNames : Bool := false
  usesIdIndex : Bool := true
  format : Format := .text
  deriving DecidableEq, Repr

inductive Command where
  -- Lists what a selector matches in the tree of a file.
  | query (path selector : String) (settings : QuerySettings)
  -- Shows how a selector is understood.
  | parse (selector : String)
  deriving DecidableEq, Repr

namespace QuerySettings

def options (settings : QuerySettings) : Options :=
  { exactNames := settings.exactNames, usesIdIndex := settings.usesIdIndex }

def mode (settings : QuerySettings) : SelectMode :=
  if settings.first then .first else .all

def flags (settings : QuerySettings) : List String :=
  (if settings.first then ["--first"] else []) ++
    (if settings.exactNames then ["--case-sensitive-names"] else []) ++
    (if settings.usesIdIndex then [] else ["--no-id-index"]) ++
    ["--format", settings.format.name]

-- The words that ask for a query. Neither operand is taken for a flag.
def args (settings : QuerySettings) (path selector : String) : List String :=
  "query" :: (settings.flags ++ ["--", path, selector])

end QuerySettings

end CssQuery
