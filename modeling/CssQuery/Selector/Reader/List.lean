import CssQuery.Selector.Reader.Compound
import CssQuery.Token.Scan

namespace CssQuery.Reader

-- A complex selector ends with the text, at a comma, or at the parenthesis around
-- its list.
def endsComplex : List Token → Bool
  | [] => true
  | t :: _ => t.kind == .comma || t.kind == .closeParen

def combinatorOfKind? : Kind → Option Combinator
  | .delim '>' => some .child
  | .delim '+' => some .nextSibling
  | .delim '~' => some .subsequentSibling
  | _ => none

-- The combinator before the next compound, or nothing at the end of the complex
-- selector. Blanks alone stand for the descendant combinator.
def combinator? (finish : Nat) (ts : List Token) :
    Except SelectorError (Option (Reading Token Combinator (ts.length + 1))) :=
  match h : skipBlanks ts with
  | [] => .ok none
  | t :: rest =>
      match combinatorOfKind? t.kind with
      | some combinator =>
          if endsComplex (skipBlanks rest) then
            .error (.malformed t.start (.danglingCombinator combinator.symbol))
          else .ok (some ((blanks combinator rest).widen (skipBlanks_rest h)).weaken)
      | none =>
          if endsComplex (t :: rest) then .ok none
          else if (t :: rest).length < ts.length then .ok (some (blanks .descendant ts))
          else .error (unexpected finish (t :: rest))

-- Continues a complex selector. The compound after a combinator becomes the
-- subject, and the subject so far becomes the link nearest to it.
def chain (nested : ListReader) (finish : Nat) (sofar : Complex) (ts : List Token) :
    Result Complex (ts.length + 1) :=
  match combinator? finish ts with
  | .error error => .error error
  | .ok none => .ok (blanks sofar ts)
  | .ok (some combinator) =>
      match compound nested finish combinator.rest with
      | .error error => .error error
      | .ok subject =>
          let links := ⟨combinator.value, sofar.subject⟩ :: sofar.links
          match chain nested finish ⟨subject.value, links⟩ subject.rest with
          | .error error => .error error
          | .ok complex => .ok (combinator.closedBy (subject.continuedBy complex)).weaken
termination_by ts.length
decreasing_by exact Nat.lt_of_lt_of_le subject.within (Nat.le_of_lt_succ combinator.within)

def complex (nested : ListReader) (finish : Nat) (ts : List Token) : Result Complex ts.length :=
  match compound nested finish ts with
  | .error error => .error error
  | .ok subject => (chain nested finish ⟨subject.value, []⟩ subject.rest).map subject.continuedBy

-- A comma, which announces another selector.
def comma? (ts : List Token) : Option (Reading Token Unit ts.length) :=
  match ts with
  | [] => none
  | t :: rest => if t.kind = .comma then some (.ofHead () t rest) else none

def selectorList (nested : ListReader) (finish : Nat) (ts : List Token) :
    Result SelectorList ts.length :=
  match complex nested finish (skipBlanks ts) with
  | .error error => .error error
  | .ok read =>
      let first := (blanks () ts).closedBy read
      match comma? first.rest with
      | none => .ok (first.map ([·]))
      | some comma =>
          match selectorList nested finish comma.rest with
          | .error error => .error error
          | .ok more =>
              .ok (first.followedBy (comma.followedBy (more.map (first.value :: ·))))
termination_by ts.length
decreasing_by exact Nat.lt_trans comma.within first.within

-- Reads nested lists where a given number of levels is still allowed. The level
-- below reads what is nested in them.
def nestedList (finish limit : Nat) : Nat → ListReader
  | 0, colon, _ => .error (.malformed colon (.nestedTooDeep limit))
  | room + 1, colon, ts =>
      if (skipBlanks ts).isEmpty then .error (.malformed colon .unbalancedParens)
      else selectorList (nestedList finish limit room) finish ts

end CssQuery.Reader

namespace CssQuery.SelectorList

-- The list that a text writes, with lists nested at most limit levels deep.
def ofText (text : String) (limit : Nat) : Except SelectorError SelectorList := do
  let tokens ← Token.scan text
  let finish := Text.byteSize text.toList
  if (Reader.skipBlanks tokens).isEmpty then
    throw (.malformed 0 .emptySelector)
  let list ← Reader.selectorList (Reader.nestedList finish limit limit) finish tokens
  match list.rest with
  | [] => return list.value
  | rest => throw (Reader.unexpected finish rest)

end CssQuery.SelectorList
