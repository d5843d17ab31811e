import CssQuery.Dom.Description
import CssQuery.Selector.Fault

namespace CssQuery

-- What a run leaves behind.
@[ext]
structure Report where
  code : Nat
  stdout : String
  stderr : String
  deriving DecidableEq, Repr

-- The styles that a terminal shows parts of a report in.
inductive Style where
  | dimmed
  | bold
  | red
  | green
  | yellow
  | cyan
  deriving DecidableEq, Repr

namespace Report

def spaces (count : Nat) : String := String.ofList (List.replicate count ' ')

def column (n : Nat) : String :=
  let digits := toString n
  spaces (6 - digits.length) ++ digits

def matchCount (count : Nat) : String :=
  if count = 1 then s!"{count} match" else s!"{count} matches"

-- The number of characters before a byte of the text, or zero if the byte is not
-- the first of a character.
def columnOf (position : Nat) (cs : List Char) : Nat :=
  match (List.range (cs.length + 1)).find? fun n => Text.byteSize (cs.take n) == position with
  | some count => count
  | none => 0

section Styled

variable (style : Style → String → String)

def attributeText : String × String → String
  | (name, value) => s!" {style .yellow name}=\"{style .green value}\""

def startTag (tag : String) (attrs : Attributes) : String :=
  let shown := String.join (attrs.sort.pairs.map (attributeText style))
  s!"<{style .cyan tag}{shown}>"

def matchLine (dom : Dom) (node : Node) : String :=
  match dom.element? node with
  | none => ""
  | some (tag, attrs) => s!"{style .dimmed (column node)}  {startTag style tag attrs}\n"

def ofMatches (dom : Dom) (nodes : List Node) : Report where
  code := 0
  stdout := String.join (nodes.map (matchLine style dom))
  stderr := s!"{style .dimmed (matchCount nodes.length)}\n"

-- Shows the selector with a caret under the place of the error.
def ofSelectorError (selector : String) (error : SelectorError) : Report where
  code := 2
  stdout := ""
  stderr :=
    let label := if error.isUnsupported then "unsupported:" else "error:"
    let caret := spaces (columnOf error.position selector.toList) ++
      style .bold (style .yellow "^")
    s!"{style .bold (style .red label)} {error.message}\n  {selector}\n  {caret}\n"

end Styled

-- How a run ends that fails, given what is told of the failure.
def ofFailure (told : String) : Report := ⟨1, "", s!"Error: {told}\n"⟩

-- How a run ends that meets a state it rules out.
def ofCrash (told : String) : Report := ⟨101, "", told⟩

end Report

end CssQuery
