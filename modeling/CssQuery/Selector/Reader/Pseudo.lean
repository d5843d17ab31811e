import CssQuery.Selector.Reader.Argument

namespace CssQuery.Reader

-- Reads the list of selectors in the parentheses of a pseudo-class, given the byte
-- of its colon.
abbrev ListReader := (colon : Nat) → (ts : List Token) → Result SelectorList ts.length

def closeCall (finish colon : Nat) (ts : List Token) : Result Unit ts.length :=
  match ts with
  | [] => .error (.malformed colon .unbalancedParens)
  | t :: rest =>
      if t.kind = .closeParen then .ok (.ofHead () t rest)
      else .error (unexpected finish (t :: rest))

def listCall (nested : ListReader) (finish colon : Nat) (ts : List Token) :
    Result SelectorList ts.length := do
  let selectors ← nested colon ts
  let close ← closeCall finish colon selectors.rest
  return selectors.followedBy (close.map fun _ => selectors.value)

-- A formula with the parenthesis after it. The word "of" puts a list of selectors
-- between them.
def formulaCall (nested : ListReader) (finish colon : Nat) (allowOf : Bool) (ts : List Token) :
    Result (Formula × Option SelectorList) ts.length := do
  let read ← formula finish colon allowOf ts
  let (formula, hasOf) := read.value
  if hasOf then
    let selectors ← listCall nested finish colon read.rest
    return read.closedBy (selectors.map fun among => (formula, some among))
  else
    let close ← closeCall finish colon read.rest
    return read.closedBy (close.map fun _ => (formula, none))

-- A pseudo-class with an argument, after its opening parenthesis.
def call (nested : ListReader) (finish colon : Nat) (function : PseudoFunction)
    (ts : List Token) : Result Simple ts.length :=
  match function with
  | .nthChild edge =>
      (formulaCall nested finish colon true ts).map
        (·.map fun (formula, among) => .nthChild edge formula among)
  | .nthOfType edge =>
      (formulaCall nested finish colon false ts).map
        (·.map fun (formula, _) => .nthOfType edge formula)
  | .noneOf => (listCall nested finish colon ts).map (·.map .noneOf)
  | .anyOf => (listCall nested finish colon ts).map (·.map .anyOf)
  | .has => .error (.unsupported colon (.pseudoFunction "has"))

-- The name that a pseudo-element shows, if it has one.
def shownName : List Token → String
  | [] => ""
  | t :: _ =>
      match t.kind with
      | .ident name | .function name => name
      | _ => ""

def pseudoClass (nested : ListReader) (finish colon : Nat) (ts : List Token) :
    Result Simple ts.length :=
  match ts with
  | [] => .error (unexpected finish [])
  | t :: rest =>
      match t.kind with
      | .colon => .error (.unsupported colon (.pseudoElement (shownName rest)))
      | .ident name =>
          if isLegacyPseudoElement name then
            .error (.unsupported colon (.legacyPseudoElement name))
          else
            match Keyword.ofName? name with
            | some keyword => .ok (.ofHead (.keyword keyword) t rest)
            | none =>
                if isDynamicName name then .ok (.ofHead .never t rest)
                else .error (.unsupported colon (.pseudoClass name))
      | .function name =>
          match PseudoFunction.ofName? name with
          | some function => (call nested finish colon function rest).map (·.weaken)
          | none => .error (.unsupported colon (.pseudoFunction name))
      | _ => .error (unexpected finish (t :: rest))

end CssQuery.Reader
