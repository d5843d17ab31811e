import CssQuery.Reading
import CssQuery.Selector
import CssQuery.Selector.Fault

namespace CssQuery.Reader

abbrev Result (α : Type) (bound : Nat) := Except SelectorError (Reading Token α bound)

def skipBlanks (ts : List Token) : List Token := ts.dropWhile Token.isBlank

theorem skipBlanks_length (ts : List Token) : (skipBlanks ts).length ≤ ts.length :=
  (List.dropWhile_suffix _).length_le

theorem skipBlanks_rest {t : Token} {ts rest : List Token} (h : skipBlanks ts = t :: rest) :
    rest.length < ts.length := by
  have := skipBlanks_length ts
  rw [h, List.length_cons] at this
  exact this

-- A value after which only blanks are skipped.
def blanks {α : Type} (value : α) (ts : List Token) : Reading Token α (ts.length + 1) :=
  ⟨value, skipBlanks ts, Nat.lt_succ_of_le (skipBlanks_length ts)⟩

-- The byte at which the next token starts. After the last one that is the end of
-- the text.
def nextStart (finish : Nat) (ts : List Token) : Nat := (ts.head?.map Token.start).getD finish

def unexpected (finish : Nat) : List Token → SelectorError
  | [] => .malformed finish .unexpectedEnd
  | t :: _ => .malformed t.start (.unexpected t.kind)

-- A bar right after a name or an asterisk makes it a namespace.
def startsWithBar (ts : List Token) : Bool := (ts.head?.map Token.kind) == some (.delim '|')

end CssQuery.Reader
