import CssQuery.Json

namespace CssQuery.Json.Writer

def hexDigits : List Char :=
  ['0', '1', '2', '3', '4', '5', '6', '7', '8', '9', 'a', 'b', 'c', 'd', 'e', 'f']

def hexDigit (n : Nat) : Char := hexDigits[n % 16]?.getD '0'

-- Only quotes, backslashes and control characters are escaped. The common ones
-- among the latter have short forms.
def escape (c : Char) : List Char :=
  if c = '"' then ['\\', '"']
  else if c = '\\' then ['\\', '\\']
  else if c = '\x08' then ['\\', 'b']
  else if c = '\x0c' then ['\\', 'f']
  else if c = '\n' then ['\\', 'n']
  else if c = '\r' then ['\\', 'r']
  else if c = '\t' then ['\\', 't']
  else if c.toNat < 0x20 then
    ['\\', 'u', '0', '0', hexDigit (c.toNat / 16), hexDigit c.toNat]
  else [c]

def quote (text : String) : String :=
  String.ofList ('"' :: text.toList.flatMap escape ++ ['"'])

def indent (depth : Nat) : String := String.ofList (List.replicate (2 * depth) ' ')

mutual

-- A value on lines of its own. Its first line continues the line it stands on.
def render (depth : Nat) : Json → String
  | .null => "null"
  | .bool true => "true"
  | .bool false => "false"
  | .number literal => literal
  | .string text => quote text
  | .array [] => "[]"
  | .array (first :: more) =>
      "[\n" ++ indent (depth + 1) ++ render (depth + 1) first ++ renderItems (depth + 1) more ++
        "\n" ++ indent depth ++ "]"
  | .object [] => "\x7b\x7d"
  | .object ((name, first) :: more) =>
      "\x7b\n" ++ indent (depth + 1) ++ quote name ++ ": " ++ render (depth + 1) first ++
        renderFields (depth + 1) more ++ "\n" ++ indent depth ++ "\x7d"

def renderItems (depth : Nat) : List Json → String
  | [] => ""
  | item :: more => ",\n" ++ indent depth ++ render depth item ++ renderItems depth more

def renderFields (depth : Nat) : List (String × Json) → String
  | [] => ""
  | (name, value) :: more =>
      ",\n" ++ indent depth ++ quote name ++ ": " ++ render depth value ++ renderFields depth more

end

end CssQuery.Json.Writer

namespace CssQuery.Json

def pretty (value : Json) : String := Writer.render 0 value

end CssQuery.Json
