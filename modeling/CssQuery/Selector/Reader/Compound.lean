import CssQuery.Selector.Reader.Attribute
import CssQuery.Selector.Reader.Pseudo

namespace CssQuery.Reader

-- A type or an asterisk is allowed only at the head of a compound.
def typeSelector (selector : Simple) (isFirst : Bool) (t : Token) (rest : List Token) :
    Result Simple (t :: rest).length :=
  if startsWithBar rest then .error (.unsupported t.start .namespacePrefix)
  else if isFirst then .ok (.ofHead selector t rest)
  else .error (.malformed t.start .misplacedType)

def className (finish : Nat) (ts : List Token) : Result String ts.length :=
  match ts with
  | ⟨.ident name, start, lexeme⟩ :: rest => .ok (.ofHead name ⟨.ident name, start, lexeme⟩ rest)
  | ts => .error (unexpected finish ts)

-- One simple selector, or nothing where the next token cannot begin one.
def simple? (nested : ListReader) (finish : Nat) (isFirst : Bool) (ts : List Token) :
    Except SelectorError (Option (Reading Token Simple ts.length)) :=
  match ts with
  | [] => .ok none
  | t :: rest =>
      match t.kind with
      | .ident name => some <$> typeSelector (.tag name) isFirst t rest
      | .delim '*' => some <$> typeSelector .universal isFirst t rest
      | .delim '|' => .error (.unsupported t.start .namespacePrefix)
      | .hash name isIdentifier =>
          if isIdentifier then .ok (some (.ofHead (.hasId name) t rest))
          else .error (.malformed t.start (.invalidId name))
      | .delim '.' => (className finish rest).map fun read => some (read.map .hasClass).weaken
      | .openBracket =>
          (attributeSelector finish t.start rest).map fun read =>
            some (read.map .hasAttribute).weaken
      | .colon => (pseudoClass nested finish t.start rest).map fun read => some read.weaken
      | _ => .ok none

def simples (nested : ListReader) (finish : Nat) (ts : List Token) :
    Result Compound (ts.length + 1) :=
  match simple? nested finish false ts with
  | .error error => .error error
  | .ok none => .ok (.ofNone [] ts)
  | .ok (some first) =>
      match simples nested finish first.rest with
      | .error error => .error error
      | .ok more => .ok (first.continuedBy (more.map (first.value :: ·))).weaken
termination_by ts.length
decreasing_by exact first.within

-- A compound has at least one simple selector.
def compound (nested : ListReader) (finish : Nat) (ts : List Token) :
    Result Compound ts.length :=
  match simple? nested finish true ts with
  | .error error => .error error
  | .ok none =>
      match ts with
      | ⟨.comma, start, _⟩ :: _ | ⟨.closeParen, start, _⟩ :: _ =>
          .error (.malformed start .emptyCompound)
      | _ => .error (unexpected finish ts)
  | .ok (some first) =>
      match simples nested finish first.rest with
      | .error error => .error error
      | .ok more => .ok (first.continuedBy (more.map (first.value :: ·)))

end CssQuery.Reader
