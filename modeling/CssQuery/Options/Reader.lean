import CssQuery.Json.Reader
import CssQuery.Options

namespace CssQuery.Options

open Json.Reader (Result sign sign? skipBlanks)

inductive Field where
  | exactNames
  | maxNesting
  | usesIdIndex
  deriving DecidableEq, Repr

namespace Field

-- An array lists the fields in this order.
def all : List Field := [exactNames, maxNesting, usesIdIndex]

def name : Field → String
  | exactNames => "case_sensitive_names"
  | maxNesting => "max_nesting_depth"
  | usesIdIndex => "use_id_index"

def ofName? (name : String) : Option Field := all.find? (·.name == name)

end Field

structure Draft where
  exactNames : Option Bool := none
  maxNesting : Option Nat := none
  usesIdIndex : Option Bool := none

namespace Draft

def gives (draft : Draft) : Field → Bool
  | .exactNames => draft.exactNames.isSome
  | .maxNesting => draft.maxNesting.isSome
  | .usesIdIndex => draft.usesIdIndex.isSome

def complete (draft : Draft) : Options :=
  let defaults : Options := {}
  ⟨draft.exactNames.getD defaults.exactNames, draft.maxNesting.getD defaults.maxNesting,
    draft.usesIdIndex.getD defaults.usesIdIndex⟩

end Draft

-- A value of one piece. Arrays and objects are refused where they open, whatever
-- they hold.
def scalar (cs : List Char) : Result Json cs.length :=
  match skipBlanks cs with
  | '[' :: _ | '{' :: _ => .error .mismatched
  | _ => Json.Reader.value .keep 0 cs

def bool (cs : List Char) : Result Bool cs.length := do
  let read ← scalar cs
  match read.value with
  | .bool value => return read.map fun _ => value
  | _ => throw .mismatched

-- A number of 64 bits without sign, point or exponent.
def natural (cs : List Char) : Result Nat cs.length := do
  let read ← scalar cs
  match read.value with
  | .number literal =>
      if Text.isDigits literal.toList && Text.decimal literal.toList < UInt64.size then
        return read.map fun _ => Text.decimal literal.toList
      else throw .mismatched
  | _ => throw .mismatched

def value (draft : Draft) (field : Field) (cs : List Char) : Result Draft cs.length :=
  match field with
  | .exactNames => (bool cs).map (·.map fun given => { draft with exactNames := some given })
  | .maxNesting => (natural cs).map (·.map fun given => { draft with maxNesting := some given })
  | .usesIdIndex => (bool cs).map (·.map fun given => { draft with usesIdIndex := some given })

-- What follows the name of a field. Unknown fields are skipped, and known ones may
-- not come twice.
def named (draft : Draft) (name : String) (cs : List Char) : Result Draft cs.length :=
  match Field.ofName? name with
  | none => do
      let colon ← sign ':' cs
      let skipped ← Json.Reader.value .skip (colon.rest.length + 1) colon.rest
      return colon.followedBy (skipped.map fun _ => draft)
  | some field =>
      if draft.gives field then .error .mismatched
      else do
        let colon ← sign ':' cs
        let given ← value draft field colon.rest
        return colon.followedBy given

def member (draft : Draft) (cs : List Char) : Result Draft cs.length := do
  let key ← Json.Reader.key .keep cs
  let given ← named draft key.value key.rest
  return key.followedBy given

-- Members after the first one, up to the closing brace.
def members (draft : Draft) (cs : List Char) : Result Draft cs.length :=
  match sign? '}' cs with
  | some close => .ok (close.map fun _ => draft)
  | none =>
      match sign ',' cs with
      | .error fault => .error fault
      | .ok comma =>
          match member draft comma.rest with
          | .error fault => .error fault
          | .ok given =>
              match members given.value given.rest with
              | .error fault => .error fault
              | .ok more => .ok (comma.followedBy (given.followedBy more))
termination_by cs.length
decreasing_by exact Nat.lt_trans given.within comma.within

def object (cs : List Char) : Result Draft cs.length :=
  match sign? '}' cs with
  | some close => .ok (close.map fun _ => {})
  | none => do
      let given ← member {} cs
      let more ← members given.value given.rest
      return given.followedBy more

-- The values of fields in turn. An array may end early, but has no further items.
def values (draft : Draft) (fields : List Field) (cs : List Char) : Result Draft cs.length :=
  match sign? ']' cs with
  | some close => .ok (close.map fun _ => draft)
  | none =>
      match sign ',' cs with
      | .error fault => .error fault
      | .ok comma =>
          match fields with
          | [] => .error .malformed
          | field :: more =>
              match value draft field comma.rest with
              | .error fault => .error fault
              | .ok given =>
                  (values given.value more given.rest).map fun last =>
                    comma.followedBy (given.followedBy last)

def array (cs : List Char) : Result Draft cs.length :=
  match sign? ']' cs with
  | some close => .ok (close.map fun _ => {})
  | none => do
      let given ← value {} .exactNames cs
      let more ← values given.value [.maxNesting, .usesIdIndex] given.rest
      return given.followedBy more

def draft (cs : List Char) : Result Draft cs.length :=
  match sign? '[' cs with
  | some bracket => (array bracket.rest).map bracket.followedBy
  | none =>
      match sign? '{' cs with
      | some brace => (object brace.rest).map brace.followedBy
      | none =>
          match scalar cs with
          | .error fault => .error fault
          | .ok _ => .error .mismatched

-- The options that a JSON text gives. The first mistake in reading order counts.
def ofText (text : String) : Except Json.Fault Options := do
  let read ← draft text.toList
  if (skipBlanks read.rest).isEmpty then return read.value.complete else throw .malformed

end CssQuery.Options
