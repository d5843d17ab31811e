import CssQuery.Selector
import CssQuery.Token

namespace CssQuery.Grammar

-- The grammar of selectors over kinds of tokens. Each relation says that certain kinds,
-- in their order and no others, write a value.

def Blanks (ks : List Kind) : Prop := ∀ k ∈ ks, k = .blank

inductive WritesComparison : Kind → Comparison → Prop
  | equals : WritesComparison (.delim '=') .equals
  | includes : WritesComparison .includes .includes
  | dashMatch : WritesComparison .dashMatch .dashMatch
  | startsWith : WritesComparison .startsWith .startsWith
  | endsWith : WritesComparison .endsWith .endsWith
  | contains : WritesComparison .contains .contains

inductive WritesValue : Kind → String → Prop
  | ident {value : String} : WritesValue (.ident value) value
  | string {value : String} : WritesValue (.string value) value

-- A letter may tell how values compare, and no letter tells that they do so exactly.
inductive WritesFlag : List Kind → LetterCase → Prop
  | absent : WritesFlag [] .exact
  | folded {flag : String} {bs : List Kind} (hflag : Text.sameFolded flag "i" = true)
      (hbs : Blanks bs) : WritesFlag (.ident flag :: bs) .folded
  | exact {flag : String} {bs : List Kind} (hflag : Text.sameFolded flag "s" = true)
      (hbs : Blanks bs) : WritesFlag (.ident flag :: bs) .exact

-- What follows an opening bracket, with the bracket that closes it.
inductive WritesAttribute : List Kind → AttributeSelector → Prop
  | exists {name : String} {as bs : List Kind} (has : Blanks as) (hbs : Blanks bs) :
      WritesAttribute (as ++ .ident name :: (bs ++ [.closeBracket])) ⟨name, .exists, .exact⟩
  | compare {name value : String} {comparison : Comparison} {letterCase : LetterCase}
      {c v : Kind} {as bs cs ds fs : List Kind} (has : Blanks as) (hbs : Blanks bs)
      (hc : WritesComparison c comparison) (hcs : Blanks cs) (hv : WritesValue v value)
      (hds : Blanks ds) (hfs : WritesFlag fs letterCase) :
      WritesAttribute
        (as ++ .ident name :: (bs ++ c :: (cs ++ v :: (ds ++ (fs ++ [.closeBracket])))))
        ⟨name, .compare comparison value, letterCase⟩

-- The text of a formula, put together from its tokens. A run of blanks counts as one.
inductive WritesText : List Kind → List Char → Prop
  | nil : WritesText [] []
  | ident {name : String} {ks : List Kind} {cs : List Char} (h : WritesText ks cs) :
      WritesText (.ident name :: ks) (name.toList ++ cs)
  | number {digits : String} {ks : List Kind} {cs : List Char} (h : WritesText ks cs) :
      WritesText (.number digits :: ks) (digits.toList ++ cs)
  | delim {symbol : Char} {ks : List Kind} {cs : List Char} (h : WritesText ks cs) :
      WritesText (.delim symbol :: ks) (symbol :: cs)
  | blank {ks : List Kind} {cs : List Char} (h : WritesText ks cs) :
      WritesText (.blank :: ks) (' ' :: cs)

def WritesOf (k : Kind) : Prop := ∃ word, k = .ident word ∧ Text.sameFolded word "of" = true

-- Where the word "of" may follow a formula, it is no part of it.
structure WritesFormula (allowOf : Bool) (ks : List Kind) (formula : Formula) : Prop where
  text : ∃ cs, WritesText ks cs ∧ Formula.ofText? (String.ofList cs) = some formula
  no_of : allowOf = true → ∀ k ∈ ks, ¬ WritesOf k

section Nested

-- What lists in parentheses may look like.
variable (Nested : List Kind → SelectorList → Prop)

-- What follows the opening parenthesis of a pseudo-class, with the one that closes it.
inductive WritesCall : PseudoFunction → List Kind → Simple → Prop
  | nthChild {edge : Edge} {formula : Formula} {ks : List Kind}
      (hks : WritesFormula true ks formula) :
      WritesCall (.nthChild edge) (ks ++ [.closeParen]) (.nthChild edge formula none)
  | nthChildOf {edge : Edge} {formula : Formula} {among : SelectorList} {k : Kind}
      {ks ls : List Kind} (hks : WritesFormula true ks formula) (hk : WritesOf k)
      (hls : Nested ls among) :
      WritesCall (.nthChild edge) (ks ++ k :: (ls ++ [.closeParen]))
        (.nthChild edge formula (some among))
  | nthOfType {edge : Edge} {formula : Formula} {ks : List Kind}
      (hks : WritesFormula false ks formula) :
      WritesCall (.nthOfType edge) (ks ++ [.closeParen]) (.nthOfType edge formula)
  | noneOf {selectors : SelectorList} {ls : List Kind} (hls : Nested ls selectors) :
      WritesCall .noneOf (ls ++ [.closeParen]) (.noneOf selectors)
  | anyOf {selectors : SelectorList} {ls : List Kind} (hls : Nested ls selectors) :
      WritesCall .anyOf (ls ++ [.closeParen]) (.anyOf selectors)

-- What follows a colon.
inductive WritesPseudo : List Kind → Simple → Prop
  | keyword {name : String} {keyword : Keyword} (h : Keyword.ofName? name = some keyword) :
      WritesPseudo [.ident name] (.keyword keyword)
  | dynamic {name : String} (h : isDynamicName name = true) : WritesPseudo [.ident name] .never
  | call {name : String} {function : PseudoFunction} {ks : List Kind} {simple : Simple}
      (h : PseudoFunction.ofName? name = some function)
      (hks : WritesCall Nested function ks simple) : WritesPseudo (.function name :: ks) simple

-- A simple selector that may stand anywhere in a compound.
inductive WritesSimple : List Kind → Simple → Prop
  | hasId {name : String} : WritesSimple [.hash name true] (.hasId name)
  | hasClass {name : String} : WritesSimple [.delim '.', .ident name] (.hasClass name)
  | hasAttribute {selector : AttributeSelector} {ks : List Kind}
      (hks : WritesAttribute ks selector) :
      WritesSimple (.openBracket :: ks) (.hasAttribute selector)
  | pseudo {simple : Simple} {ks : List Kind} (hks : WritesPseudo Nested ks simple) :
      WritesSimple (.colon :: ks) simple

inductive WritesType : Kind → Simple → Prop
  | tag {name : String} : WritesType (.ident name) (.tag name)
  | universal : WritesType (.delim '*') .universal

inductive WritesSimples : List Kind → Compound → Prop
  | nil : WritesSimples [] []
  | cons {simple : Simple} {more : Compound} {ks ms : List Kind}
      (hks : WritesSimple Nested ks simple) (hms : WritesSimples ms more) :
      WritesSimples (ks ++ ms) (simple :: more)

inductive WritesCompound : List Kind → Compound → Prop
  | typed {type : Simple} {more : Compound} {k : Kind} {ms : List Kind} (hk : WritesType k type)
      (hms : WritesSimples Nested ms more) : WritesCompound (k :: ms) (type :: more)
  | untyped {compound : Compound} {ks : List Kind} (hks : WritesSimples Nested ks compound)
      (hne : compound ≠ []) : WritesCompound ks compound

inductive WritesCombinator : List Kind → Combinator → Prop
  | descendant {bs : List Kind} (hbs : Blanks bs) (hne : bs ≠ []) :
      WritesCombinator bs .descendant
  | child {as bs : List Kind} (has : Blanks as) (hbs : Blanks bs) :
      WritesCombinator (as ++ .delim '>' :: bs) .child
  | nextSibling {as bs : List Kind} (has : Blanks as) (hbs : Blanks bs) :
      WritesCombinator (as ++ .delim '+' :: bs) .nextSibling
  | subsequentSibling {as bs : List Kind} (has : Blanks as) (hbs : Blanks bs) :
      WritesCombinator (as ++ .delim '~' :: bs) .subsequentSibling

-- Each further compound becomes the subject, and what was the subject is linked to it.
inductive WritesComplex : List Kind → Complex → Prop
  | compound {compound : Compound} {ks : List Kind} (hks : WritesCompound Nested ks compound) :
      WritesComplex ks ⟨compound, []⟩
  | step {left : Complex} {combinator : Combinator} {subject : Compound} {ls cs ks : List Kind}
      (hls : WritesComplex ls left) (hcs : WritesCombinator cs combinator)
      (hks : WritesCompound Nested ks subject) :
      WritesComplex (ls ++ (cs ++ ks)) ⟨subject, ⟨combinator, left.subject⟩ :: left.links⟩

inductive WritesList : List Kind → SelectorList → Prop
  | one {complex : Complex} {as ks bs : List Kind} (has : Blanks as)
      (hks : WritesComplex Nested ks complex) (hbs : Blanks bs) :
      WritesList (as ++ (ks ++ bs)) [complex]
  | cons {complex : Complex} {more : SelectorList} {as ks bs ms : List Kind} (has : Blanks as)
      (hks : WritesComplex Nested ks complex) (hbs : Blanks bs) (hms : WritesList ms more) :
      WritesList (as ++ (ks ++ (bs ++ .comma :: ms))) (complex :: more)

end Nested

-- A list in parentheses, where so many levels of lists are allowed.
def WritesNested : Nat → List Kind → SelectorList → Prop
  | 0 => fun _ _ => False
  | room + 1 => WritesList (WritesNested room)

-- A whole text, with lists nested at most so deep.
def Writes (limit : Nat) : List Kind → SelectorList → Prop := WritesList (WritesNested limit)

end CssQuery.Grammar
