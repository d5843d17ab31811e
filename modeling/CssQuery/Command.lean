import CssQuery.Dom.Reader
import CssQuery.Host
import CssQuery.Json.Writer
import CssQuery.Selector.Json

namespace CssQuery

inductive ReadFault where
  | missing
  | denied
  | notDirectory
  | directory
  | nameTooLong
  | notText
  | other (reason : String)

def ReadFault.message : ReadFault → String
  | missing => "No such file or directory (os error 2)"
  | denied => "Permission denied (os error 13)"
  | notDirectory => "Not a directory (os error 20)"
  | directory => "Is a directory (os error 21)"
  | nameTooLong => "File name too long (os error 36)"
  | notText => "stream did not contain valid UTF-8"
  | other reason => reason

-- Switches the style of the terminal on and off again.
def Style.wrap (style : Style) (text : String) : String :=
  let (on, off) := codes style
  s!"\x1b[{on}m{text}\x1b[{off}m"
where
  codes : Style → Nat × Nat
    | dimmed => (2, 0)
    | bold => (1, 0)
    | red => (31, 39)
    | green => (32, 39)
    | yellow => (33, 39)
    | cyan => (36, 39)

namespace Command

def formatOfName? : String → Option Format
  | "text" => some .text
  | "json" => some .json
  | _ => none

-- A dash alone is an operand.
def isFlag (word : String) : Bool := word.startsWith "-" && word != "-"

-- The operands of a command without flags. All words after `--` are operands.
def operands? : List String → Option (List String)
  | [] => some []
  | "--" :: rest => some rest
  | word :: rest => if isFlag word then none else (operands? rest).map (word :: ·)

-- The settings and the operands of a query, which may come in any order.
def queryWords? (settings : QuerySettings) : List String → Option (QuerySettings × List String)
  | [] => some (settings, [])
  | "--" :: rest => some (settings, rest)
  | "--format" :: name :: rest => do
      let format ← formatOfName? name
      queryWords? { settings with format } rest
  | "--format=text" :: rest => queryWords? { settings with format := .text } rest
  | "--format=json" :: rest => queryWords? { settings with format := .json } rest
  | "--first" :: rest => queryWords? { settings with first := true } rest
  | "--case-sensitive-names" :: rest => queryWords? { settings with exactNames := true } rest
  | "--no-id-index" :: rest => queryWords? { settings with usesIdIndex := false } rest
  | word :: rest =>
      if isFlag word then none
      else (queryWords? settings rest).map fun (settings, operands) => (settings, word :: operands)

def ofArgs? : List String → Option Command
  | "query" :: words =>
      match queryWords? {} words with
      | some (settings, [path, selector]) => some (.query path selector settings)
      | _ => none
  | "parse" :: words =>
      match operands? words with
      | some [selector] => some (.parse selector)
      | _ => none
  | _ => none

def path? : Command → Option String
  | query path _ _ => some path
  | parse _ => none

def usage : String :=
  "usage: query TREE SELECTOR [--first] [--case-sensitive-names] [--no-id-index] " ++
    "[--format text|json]\n       parse SELECTOR\n"

end Command

namespace Host

-- One cause stands alone, and several are numbered.
def causeLines : List String → List String
  | [cause] => ["    " ++ cause]
  | causes => causes.mapIdx fun i cause =>
      let number := toString i
      Report.spaces (5 - number.length) ++ number ++ ": " ++ cause

-- A failure with what led to it on lines of their own.
def tellFailure : List String → String
  | [] => ""
  | [cause] => cause
  | context :: causes =>
      let lines := String.intercalate "\n" (causeLines causes)
      s!"{context}\n\nCaused by:\n{lines}"

-- A host to run on, in a terminal and with nothing logged. Only what is lawful about it
-- counts for the properties of runs.
def terminal (file : String → Except String String) : Host where
  command words := (Command.ofArgs? words).elim (.error ⟨2, "", Command.usage⟩) .ok
  file := file
  descriptions := Dom.readDescriptions
  layout := .byName
  pretty value := .ok value.pretty
  style := Style.wrap
  failure := tellFailure
  crash message := message ++ "\n"
  filter? := none
  logged _ _ := ""

end Host

-- Runs a command in a terminal, where the file that it names has the given contents.
def Command.run (command : Command) (contents : Except ReadFault String) : Report :=
  (Host.terminal fun _ => contents.mapError ReadFault.message).run command

end CssQuery
