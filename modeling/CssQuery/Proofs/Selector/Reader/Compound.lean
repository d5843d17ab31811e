import CssQuery.Proofs.Selector.Reader.Attribute
import CssQuery.Proofs.Selector.Reader.Pseudo
import CssQuery.Selector.Reader.Compound

namespace CssQuery.Reader

open Grammar

variable {nested : ListReader} {Nested : List Kind → SelectorList → Prop} {finish : Nat}
  {isFirst : Bool} {simple type : Simple} {compound : Compound} {k : Kind} {ks : List Kind}
  {t : Token} {ts mid rest : List Token}

-- Tokens that a simple selector or a namespace may begin with.
def opens : Kind → Bool
  | .ident _ | .hash _ _ | .openBracket | .colon => true
  | .delim symbol => symbol == '*' || symbol == '|' || symbol == '.'
  | _ => false

def Halts (ts : List Token) : Prop := ∀ t ∈ ts.head?, opens t.kind = false

variable (nested finish isFirst) in
theorem simple?_eq_none : simple? nested finish isFirst ts = .ok none ↔ Halts ts := by
  cases ts with
  | nil => simp [simple?, Halts]
  | cons t ts =>
      simp only [Halts, List.head?_cons, Option.mem_some_iff, forall_eq']
      rw [simple?]
      split
      · next name hkind => simpa [hkind, opens] using some_map_ne
      · next hkind => simpa [hkind, opens] using some_map_ne
      · next hkind => simp [hkind, opens]
      · next name isIdentifier hkind => cases isIdentifier <;> simp [hkind, opens]
      · next hkind => simpa [hkind, opens] using map_some_ne
      · next hkind => simpa [hkind, opens] using map_some_ne
      · next hkind => simpa [hkind, opens] using map_some_ne
      · next hident hstar hbar hhash hdot hbracket hcolon =>
          simp only [true_iff]
          unfold opens
          split <;> simp_all

theorem yields_className {name : String} :
    Yields (className finish ts) name rest ↔ Covers ts rest (Led (· = .ident name) (· = [])) := by
  unfold className
  split
  · simp
  · next hother =>
      cases ts with
      | nil => simp
      | cons t ts =>
          obtain ⟨kind, start, lexeme⟩ := t
          simp only [yields_error, covers_led_cons, covers_nil, false_iff]
          rintro ⟨rfl, -⟩
          exact hother name start lexeme ts rfl

theorem yields_typeSelector : Yields (typeSelector type isFirst t ts) simple rest ↔
    type = simple ∧ isFirst = true ∧ startsWithBar ts = false ∧ ts = rest := by
  unfold typeSelector
  split
  · simp [*]
  · split <;> simp [*]

theorem writesSimple_iff : WritesSimple Nested ks simple ↔
    (∃ name, simple = .hasId name ∧ Led (· = .hash name true) (· = []) ks) ∨
      (∃ name, simple = .hasClass name ∧
        Led (· = .delim '.') (Led (· = .ident name) (· = [])) ks) ∨
      (∃ selector, simple = .hasAttribute selector ∧
        Led (· = .openBracket) (WritesAttribute · selector) ks) ∨
      Led (· = .colon) (WritesPseudo Nested · simple) ks := by
  constructor
  · intro h
    cases h with
    | hasId => exact .inl ⟨_, rfl, .intro rfl rfl⟩
    | hasClass => exact .inr (.inl ⟨_, rfl, .intro rfl (.intro rfl rfl)⟩)
    | hasAttribute hks => exact .inr (.inr (.inl ⟨_, rfl, .intro rfl hks⟩))
    | pseudo hks => exact .inr (.inr (.inr (.intro rfl hks)))
  · rintro (⟨_, rfl, _, _, rfl, rfl, rfl⟩ | ⟨_, rfl, _, _, rfl, rfl, _, _, rfl, rfl, rfl⟩ |
      ⟨_, rfl, _, _, rfl, rfl, hks⟩ | ⟨_, _, rfl, rfl, hks⟩)
    · exact .hasId
    · exact .hasClass
    · exact .hasAttribute hks
    · exact .pseudo hks

theorem writesType_iff : WritesType k simple ↔
    (∃ name, k = .ident name ∧ simple = .tag name) ∨ k = .delim '*' ∧ simple = .universal := by
  constructor
  · intro h
    cases h with
    | tag => exact .inl ⟨_, rfl, rfl⟩
    | universal => exact .inr ⟨rfl, rfl⟩
  · rintro (⟨name, rfl, rfl⟩ | ⟨rfl, rfl⟩)
    · exact .tag
    · exact .universal

theorem picks_simple? (hnested : Reads nested Nested) :
    Picks (simple? nested finish isFirst ts) simple rest ↔
      Covers ts rest (WritesSimple Nested · simple) ∨ isFirst = true ∧
        startsWithBar rest = false ∧ Covers ts rest (Led (WritesType · simple) (· = [])) := by
  rw [covers_congr fun ks => writesSimple_iff]
  simp only [covers_or, covers_exists, covers_and]
  cases ts with
  | nil => simp [simple?]
  | cons t ts =>
      rw [simple?]
      simp only [covers_led_cons, covers_nil, writesType_iff]
      split
      · next name hkind =>
          simp only [hkind, picks_some_map, yields_typeSelector, Kind.ident.injEq, reduceCtorEq]
          grind
      · next hkind =>
          simp only [hkind, picks_some_map, yields_typeSelector, Kind.delim.injEq, reduceCtorEq]
          grind
      · next hkind => simp [hkind]
      · next name isIdentifier hkind =>
          cases isIdentifier with
          | false => simp [hkind]
          | true =>
              simp only [hkind, if_true, picks_some, Reading.ofHead_value, Reading.ofHead_rest,
                Kind.hash.injEq, reduceCtorEq]
              grind
      · next hkind =>
          simp only [hkind, picks_map, yields_map, yields_className, Reading.weaken_value,
            Reading.map_value, Reading.weaken_rest, Reading.map_rest, reduceCtorEq]
          grind
      · next hkind =>
          simp only [hkind, picks_map, yields_map, yields_attributeSelector, Reading.weaken_value,
            Reading.map_value, Reading.weaken_rest, Reading.map_rest, reduceCtorEq]
          grind
      · next hkind => simp [hkind, picks_map, yields_map_weaken, yields_pseudoClass hnested]
      · next hident hstar hbar hhash hdot hbracket hcolon =>
          simp only [not_picks_none, false_iff]
          grind

variable {more : Compound}

theorem yields_simples_nil : Yields (simples nested finish ts) [] rest ↔ ts = rest ∧ Halts ts := by
  rw [simples, ← simple?_eq_none nested finish false]
  split
  · next h => simp [h]
  · next h => simp [h]
  · next first h =>
      split <;> simp [h]

theorem yields_simples_cons : Yields (simples nested finish ts) (simple :: more) rest ↔
    ∃ mid, Picks (simple? nested finish false ts) simple mid ∧
      Yields (simples nested finish mid) more rest := by
  rw [simples]
  split
  · next h => simp [h]
  · next h => simp [h]
  · next first h =>
      simp only [h, picks_some, and_assoc, exists_and_left, exists_eq_left']
      split
      · next hmore => simp [hmore]
      · next hmore => simp [hmore, and_assoc]

theorem covers_simples_nil : Covers ts rest (WritesSimples Nested · []) ↔ ts = rest := by
  rw [← covers_nil]
  refine covers_congr fun ks => ⟨fun h => ?_, fun h => ?_⟩
  · cases h
    rfl
  · exact h ▸ .nil

theorem covers_simples_cons : Covers ts rest (WritesSimples Nested · (simple :: more)) ↔
    ∃ mid, Covers ts mid (WritesSimple Nested · simple) ∧
      Covers mid rest (WritesSimples Nested · more) := by
  rw [← covers_then]
  refine covers_congr fun ks => ⟨fun h => ?_, fun h => ?_⟩
  · cases h with
    | cons hks hms => exact .intro hks hms
  · obtain ⟨_, _, rfl, hks, hms⟩ := h
    exact .cons hks hms

theorem yields_simples (hnested : Reads nested Nested) :
    Yields (simples nested finish ts) compound rest ↔
      Covers ts rest (WritesSimples Nested · compound) ∧ Halts rest := by
  induction compound generalizing ts with
  | nil =>
      rw [yields_simples_nil, covers_simples_nil]
      exact and_congr_right fun h => by rw [h]
  | cons simple more ih =>
      simp only [yields_simples_cons, covers_simples_cons, picks_simple? hnested, ih,
        Bool.false_eq_true, false_and, or_false]
      grind

theorem writesCompound_iff : WritesCompound Nested ks (simple :: more) ↔
    Led (WritesType · simple) (WritesSimples Nested · more) ks ∨
      Then (WritesSimple Nested · simple) (WritesSimples Nested · more) ks := by
  constructor
  · intro h
    cases h with
    | typed hk hms => exact .inl (.intro hk hms)
    | untyped hks hne =>
        cases hks with
        | cons hks hms => exact .inr (.intro hks hms)
  · rintro (⟨_, _, rfl, hk, hms⟩ | ⟨_, _, rfl, hks, hms⟩)
    · exact .typed hk hms
    · exact .untyped (.cons hks hms) (List.cons_ne_nil _ _)

theorem not_writesCompound_nil : ¬ WritesCompound Nested ks [] := by
  intro h
  cases h with
  | untyped hks hne => exact hne rfl

theorem not_yields_compound_nil : ¬ Yields (Reader.compound nested finish ts) [] rest := by
  unfold Reader.compound
  split
  · simp
  · split <;> simp
  · split <;> simp

theorem yields_compound_cons : Yields (Reader.compound nested finish ts) (simple :: more) rest ↔
    ∃ mid, Picks (simple? nested finish true ts) simple mid ∧
      Yields (simples nested finish mid) more rest := by
  unfold Reader.compound
  split
  · next h => simp [h]
  · next h => split <;> simp [h]
  · next first h =>
      simp only [h, picks_some, and_assoc, exists_and_left, exists_eq_left']
      split
      · next hmore => simp [hmore]
      · next hmore => simp [hmore, and_assoc]

-- A bar begins no simple selector, so none stands right after a type.
theorem not_bar_of_simples (h : Yields (simples nested finish ts) more rest) :
    startsWithBar ts = false := by
  cases ts with
  | nil => rfl
  | cons t ts =>
      rw [startsWithBar, List.head?_cons, Option.map_some, beq_eq_false_iff_ne, ne_eq,
        Option.some.injEq]
      intro hbar
      cases more with
      | nil =>
          have hhalts := (yields_simples_nil.1 h).2 t rfl
          rw [hbar] at hhalts
          cases hhalts
      | cons simple more =>
          obtain ⟨mid, hpicks, -⟩ := yields_simples_cons.1 h
          simp [simple?, hbar] at hpicks

theorem yields_compound (hnested : Reads nested Nested) :
    Yields (Reader.compound nested finish ts) compound rest ↔
      Covers ts rest (WritesCompound Nested · compound) ∧ Halts rest := by
  cases compound with
  | nil => simp [not_yields_compound_nil, not_writesCompound_nil, Covers]
  | cons simple more =>
      rw [yields_compound_cons, covers_congr fun ks => writesCompound_iff]
      simp only [picks_simple? hnested, covers_or, covers_then, covers_led, covers_nil]
      constructor
      · rintro ⟨mid, hsimple | ⟨-, -, t, _, rfl, htype, rfl⟩, hmore⟩
        · obtain ⟨hmore, hhalts⟩ := (yields_simples hnested).1 hmore
          exact ⟨.inr ⟨mid, hsimple, hmore⟩, hhalts⟩
        · obtain ⟨hmore, hhalts⟩ := (yields_simples hnested).1 hmore
          exact ⟨.inl ⟨t, _, rfl, htype, hmore⟩, hhalts⟩
      · rintro ⟨⟨t, mid, rfl, htype, hmore⟩ | ⟨mid, hsimple, hmore⟩, hhalts⟩
        · have hmore : Yields (simples nested finish mid) more rest :=
            (yields_simples hnested).2 ⟨hmore, hhalts⟩
          exact ⟨mid, .inr ⟨trivial, not_bar_of_simples hmore, t, mid, rfl, htype, rfl⟩, hmore⟩
        · exact ⟨mid, .inl hsimple, (yields_simples hnested).2 ⟨hmore, hhalts⟩⟩

theorem opens_of_compound (h : WritesCompound Nested ks compound) :
    ∃ k more, ks = k :: more ∧ opens k = true := by
  cases h with
  | typed hk =>
      cases hk with
      | tag => exact ⟨_, _, rfl, rfl⟩
      | universal => exact ⟨_, _, rfl, rfl⟩
  | untyped hks hne =>
      cases hks with
      | nil => exact absurd rfl hne
      | cons hks hms =>
          cases hks with
          | hasId | hasClass | hasAttribute | pseudo => exact ⟨_, _, rfl, rfl⟩

end CssQuery.Reader
