import CssQuery.Proofs.Text.Digits
import CssQuery.Proofs.Token.Lexemes

namespace CssQuery.Token

variable {c quote : Char} {rest value : List Char}

-- Every character has a code that an escape can give, except the one whose code is zero.
def escapeText (c : Char) : List Char :=
  if c.toNat = 0 then [c] else Text.hexText 6 c.toNat ++ [' ']

-- An escape is read back as the character it stands for, wherever it stands.
theorem escapes_escapeText : Escapes c (escapeText c) rest := by
  unfold escapeText
  split
  · next hzero =>
      obtain rfl : c = '\x00' := Char.ext (UInt32.toNat_inj.1 hzero)
      exact .plain rfl (by decide)
  · next hne =>
      have hlength := Text.length_hexText 6 c.toNat
      have hcode : Text.hexadecimal (Text.hexText 6 c.toNat) = c.toNat := by
        have hvalid : c.toNat < 0xd800 ∨ 0xdfff < c.toNat ∧ c.toNat < 0x110000 := c.valid
        rw [Text.hexadecimal_hexText, Nat.mod_eq_of_lt (by omega)]
      refine .closed ⟨?_, hlength.le, fun d => Text.isHexDigit_of_mem⟩ (.inl ⟨?_, hcode.symm⟩) rfl
      · exact List.ne_nil_of_length_eq_add_one hlength
      · rwa [hcode]

-- A name in which every character is escaped.
def nameText (value : List Char) : List Char := value.flatMap fun c => '\\' :: escapeText c

theorem nameSpelling_nameText : NameSpelling rest value (nameText value) := by
  induction value with
  | nil => exact .nil
  | cons c value ih => exact .escape escapes_escapeText ih

theorem quotedSpelling_nameText : QuotedSpelling quote value (nameText value) := by
  induction value with
  | nil => exact .nil
  | cons c value ih => exact .escape escapes_escapeText ih

theorem exists_nameText (h : value ≠ []) : ∃ tail, nameText value = '\\' :: tail := by
  obtain ⟨c, cs, rfl⟩ := List.exists_cons_of_ne_nil h
  exact ⟨_, rfl⟩

theorem opensName_nameText (h : value ≠ []) : OpensName (nameText value) := by
  obtain ⟨tail, htail⟩ := exists_nameText h
  rw [htail]
  exact .inr rfl

-- A text of the token, for kinds that the reader of selectors accepts and that stand for
-- more than a blank.
def kindText : Kind → List Char
  | .ident name => nameText name.toList
  | .function name => nameText name.toList ++ ['(']
  | .hash name _ => '#' :: nameText name.toList
  | .string value => '"' :: (nameText value.toList ++ ['"'])
  | .number digits => digits.toList
  | .delim symbol => [symbol]
  | .includes => ['~', '=']
  | .dashMatch => ['|', '=']
  | .startsWith => ['^', '=']
  | .endsWith => ['$', '=']
  | .contains => ['*', '=']
  | .blank => [' ']
  | .colon => [':']
  | .comma => [',']
  | .openBracket => ['[']
  | .closeBracket => [']']
  | .openParen => ['(']
  | .closeParen => [')']
  | .finish => []

def Spellable : Kind → Prop
  | .ident name | .function name => name ≠ ""
  | .hash name isIdentifier => name ≠ "" ∧ isIdentifier = true
  | .number digits => Text.isDigits digits.toList = true
  | .delim symbol => symbol ∈ ['=', '.', '*', '>', '+', '~', '-']
  | .blank | .finish => False
  | _ => True

variable (rest) in
theorem endsName_slash : EndsName ('/' :: rest) := ⟨rfl, rfl⟩

theorem lexeme_kindText {k : Kind} (hk : Spellable k) : Lexeme k (kindText k) ('/' :: rest) := by
  cases k with
  | ident value =>
      have hopens := opensName_nameText (mt String.toList_eq_nil_iff.1 hk)
      have h : Lexeme (.ident (.ofList value.toList)) (nameText value.toList) ('/' :: rest) :=
        .ident hopens nameSpelling_nameText (endsName_slash rest) nofun
      rwa [String.ofList_toList] at h
  | function value =>
      have hopens := opensName_nameText (mt String.toList_eq_nil_iff.1 hk)
      have h : Lexeme (.function (.ofList value.toList)) (nameText value.toList ++ ['('])
          ('/' :: rest) := .function hopens nameSpelling_nameText
      rwa [String.ofList_toList] at h
  | hash value isIdentifier =>
      obtain ⟨hvalue, rfl⟩ := hk
      have hopens := opensName_nameText (mt String.toList_eq_nil_iff.1 hvalue)
      obtain ⟨tail, htail⟩ := exists_nameText (mt String.toList_eq_nil_iff.1 hvalue)
      have h : Lexeme (.hash (.ofList value.toList) true) ('#' :: nameText value.toList)
          ('/' :: rest) :=
        .hash (htail ▸ List.cons_ne_nil _ _) nameSpelling_nameText (endsName_slash rest)
          (iff_of_true rfl hopens)
      rwa [String.ofList_toList] at h
  | string value =>
      have h : Lexeme (.string (.ofList value.toList)) ('"' :: (nameText value.toList ++ ['"']))
          ('/' :: rest) := .string (.inl rfl) quotedSpelling_nameText
      rwa [String.ofList_toList] at h
  | number digits =>
      obtain ⟨d, ds, hds, hd, hmore⟩ := Text.exists_of_isDigits hk
      have h : Lexeme (.number (.ofList (d :: ds))) (d :: ds) ('/' :: rest) :=
        .number hd hmore (by simp)
      rwa [← hds, String.ofList_toList] at h
  | delim symbol =>
      have hsymbol : symbol ∈ ['=', '.', '*', '>', '+', '~', '-'] := hk
      simp only [List.mem_cons, List.not_mem_nil, or_false] at hsymbol
      refine .delim ?_
      rcases hsymbol with rfl | rfl | rfl | rfl | rfl | rfl | rfl <;>
        exact ⟨rfl, by decide, nofun, rfl, rfl, by decide, rfl, fun _ => nofun⟩
  | blank | finish => exact hk.elim
  | includes | dashMatch | startsWith | endsWith | contains => exact .comparison rfl
  | _ => exact .punctuation rfl

-- Kinds in an order that a text can give them: no blank ends it or is followed by another.
inductive Solid : List Kind → Prop
  | nil : Solid []
  | cons {k : Kind} {ks : List Kind} (hk : Spellable k) (hks : Solid ks) : Solid (k :: ks)
  | blank {k : Kind} {ks : List Kind} (hk : Spellable k) (hks : Solid ks) :
      Solid (.blank :: k :: ks)

theorem Solid.append {as bs : List Kind} (has : Solid as) (hbs : Solid bs) : Solid (as ++ bs) := by
  induction has with
  | nil => exact hbs
  | cons hk _ ih => exact .cons hk ih
  | blank hk _ ih => exact .blank hk ih

def gap : List Char := ['/', '*', '*', '/']

-- Comments keep apart what would join.
def spelled (ks : List Kind) : List Char := ks.flatMap fun k => kindText k ++ gap

theorem kindText_head {k : Kind} (hk : Spellable k) :
    ∃ c tail, kindText k = c :: tail ∧ c ≠ '/' ∧ Text.isBlank c = false := by
  have hname {value : String} (h : value ≠ "") : ∃ tail, nameText value.toList = '\\' :: tail := by
    obtain ⟨c, cs, hcs⟩ := List.exists_cons_of_ne_nil (mt String.toList_eq_nil_iff.1 h)
    rw [hcs]
    exact ⟨_, rfl⟩
  cases k with
  | ident value =>
      obtain ⟨tail, htext⟩ := hname hk
      exact ⟨'\\', tail, htext, by decide, rfl⟩
  | function value =>
      obtain ⟨tail, htext⟩ := hname hk
      exact ⟨'\\', tail ++ ['('], by rw [kindText, htext]; rfl, by decide, rfl⟩
  | number digits =>
      obtain ⟨d, ds, hds, hd, -⟩ := Text.exists_of_isDigits hk
      exact ⟨d, ds, hds, Text.ne_of_isDigit hd rfl, Text.isBlank_of_isDigit hd⟩
  | delim symbol =>
      have hsymbol : symbol ∈ ['=', '.', '*', '>', '+', '~', '-'] := hk
      simp only [List.mem_cons, List.not_mem_nil, or_false] at hsymbol
      refine ⟨symbol, [], rfl, ?_⟩
      rcases hsymbol with rfl | rfl | rfl | rfl | rfl | rfl | rfl <;> decide
  | blank | finish => exact hk.elim
  | _ => exact ⟨_, _, rfl, by decide, rfl⟩

theorem spelled_cons (k : Kind) (ks : List Kind) :
    spelled (k :: ks) = kindText k ++ (gap ++ spelled ks) := by
  rw [spelled, List.flatMap_cons, List.append_assoc]
  rfl

theorem isComment_gap : IsComment gap := ⟨[], rfl, fun h => by simpa using h.length_le⟩

theorem spells_kind {k : Kind} {ks : List Kind} {cs : List Char} (hk : Spellable k)
    (hcs : Comments cs) (hks : Spells (gap ++ spelled ks) ks) :
    Spells (cs ++ spelled (k :: ks)) (k :: ks) := by
  obtain ⟨c, tail, htext, hslash, -⟩ := kindText_head hk
  rw [spelled_cons]
  refine spells_cons hcs (lexeme_kindText hk) ?_ hks
  rintro body heq
  rw [htext] at heq
  exact hslash (List.cons_eq_cons.1 heq).1

-- A scan that begins behind a token finds a comment first.
theorem spells_spelled {ks : List Kind} {cs : List Char} (h : Solid ks) (hcs : Comments cs) :
    Spells (cs ++ spelled ks) ks := by
  have hgap : Comments gap := by
    have h := Comments.cons isComment_gap .nil
    rwa [List.append_nil] at h
  induction h generalizing cs with
  | nil =>
      rw [spelled, List.flatMap_nil, List.append_nil]
      exact spells_comments hcs
  | cons hk _ ih => exact spells_kind hk hcs (ih hgap)
  | @blank k ks hk _ ih =>
      obtain ⟨c, tail, htext, hslash, hblank⟩ := kindText_head hk
      have hends : EndsBlank (spelled (k :: ks)) := by
        rw [spelled_cons, htext]
        refine ⟨hblank, ?_⟩
        rintro body heq
        exact hslash (List.cons_eq_cons.1 heq).1
      have hrun : BlankRun gap := by
        have h := BlankRun.comment isComment_gap .nil
        rwa [List.append_nil] at h
      have hlexeme : Lexeme .blank (' ' :: gap) (spelled (k :: ks)) := .blank rfl hrun hends
      exact spells_cons hcs hlexeme nofun (spells_kind hk .nil (ih hgap))

theorem exists_text {ks : List Kind} (h : Solid ks) :
    ∃ text tokens, scan text = .ok tokens ∧ tokens.map Token.kind = ks := by
  obtain ⟨tokens, hscan, hkinds⟩ := spells_spelled h .nil 0
  refine ⟨String.ofList (spelled ks), tokens, ?_, hkinds⟩
  rw [List.nil_append] at hscan
  rw [scan, String.toList_ofList, hscan]

end CssQuery.Token
