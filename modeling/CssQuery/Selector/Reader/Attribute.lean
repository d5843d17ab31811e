import CssQuery.Selector.Reader.Basic

namespace CssQuery.Reader

-- The name in an attribute selector whose bracket opens at the given byte.
def attributeName (finish opening : Nat) (ts : List Token) : Result String ts.length :=
  match h : skipBlanks ts with
  | [] => .error (.malformed opening .unterminatedAttribute)
  | t :: rest =>
      match t.kind with
      | .ident name =>
          if startsWithBar rest then .error (.unsupported t.start .namespacePrefix)
          else .ok ⟨name, rest, skipBlanks_rest h⟩
      | .delim '*' | .delim '|' => .error (.unsupported t.start .namespacePrefix)
      | _ => .error (unexpected finish (t :: rest))

def comparisonOfKind? : Kind → Option Comparison
  | .delim '=' => some .equals
  | .includes => some .includes
  | .dashMatch => some .dashMatch
  | .startsWith => some .startsWith
  | .endsWith => some .endsWith
  | .contains => some .contains
  | _ => none

-- The comparison after the name, or nothing when the bracket closes instead.
def attributeComparison (finish opening : Nat) (ts : List Token) :
    Result (Option Comparison) ts.length :=
  match h : skipBlanks ts with
  | [] => .error (.malformed opening .unterminatedAttribute)
  | t :: rest =>
      if t.kind = .closeBracket then .ok ⟨none, rest, skipBlanks_rest h⟩
      else
        match comparisonOfKind? t.kind with
        | some comparison => .ok ⟨some comparison, rest, skipBlanks_rest h⟩
        | none => .error (unexpected finish (t :: rest))

def attributeValue (finish opening : Nat) (ts : List Token) : Result String ts.length :=
  match h : skipBlanks ts with
  | [] => .error (.malformed opening .unterminatedAttribute)
  | t :: rest =>
      match t.kind with
      | .ident value | .string value => .ok ⟨value, rest, skipBlanks_rest h⟩
      | _ => .error (unexpected finish (t :: rest))

-- The letter i folds case and the letter s compares exactly, which is also what
-- no letter means.
def attributeFlag (finish : Nat) (ts : List Token) : Result LetterCase (ts.length + 1) :=
  match h : skipBlanks ts with
  | ⟨.ident flag, start, lexeme⟩ :: rest =>
      let read (letterCase : LetterCase) : Reading Token LetterCase (ts.length + 1) :=
        Reading.weaken ⟨letterCase, rest, skipBlanks_rest h⟩
      if Text.sameFolded flag "i" then .ok (read .folded)
      else if Text.sameFolded flag "s" then .ok (read .exact)
      else .error (unexpected finish (⟨.ident flag, start, lexeme⟩ :: rest))
  | _ => .ok (blanks .exact ts)

def attributeClose (finish opening : Nat) (ts : List Token) : Result Unit ts.length :=
  match h : skipBlanks ts with
  | [] => .error (.malformed opening .unterminatedAttribute)
  | t :: rest =>
      if t.kind = .closeBracket then
        .ok ⟨(), rest, skipBlanks_rest h⟩
      else .error (unexpected finish (t :: rest))

def attributeSelector (finish opening : Nat) (ts : List Token) :
    Result AttributeSelector ts.length := do
  let name ← attributeName finish opening ts
  let comparison ← attributeComparison finish opening name.rest
  match comparison.value with
  | none => return name.followedBy (comparison.map fun _ => ⟨name.value, .exists, .exact⟩)
  | some operator =>
      let value ← attributeValue finish opening comparison.rest
      let flag ← attributeFlag finish value.rest
      let close ← attributeClose finish opening flag.rest
      let selector := close.map fun _ => ⟨name.value, .compare operator value.value, flag.value⟩
      return name.followedBy (comparison.followedBy (value.followedBy (flag.closedBy selector)))

end CssQuery.Reader
