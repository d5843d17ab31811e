import CssQuery.Proofs.Selector.Reader.Basic
import CssQuery.Selector.Reader.Attribute

namespace CssQuery.Reader

open Grammar

variable {finish opening : Nat} {k : Kind} {ks : List Kind} {ts mid rest : List Token}

theorem yields_attributeName {name : String} :
    Yields (attributeName finish opening ts) name rest ↔
      Next ts (· = .ident name) rest ∧ startsWithBar rest = false := by
  unfold attributeName
  split
  · next h => simp [not_next h]
  · next t more h =>
      rw [next_iff h]
      split
      · next found hkind =>
          split
          · next hbar =>
              simp only [yields_error, hkind, Kind.ident.injEq]
              grind
          · next hbar =>
              simp only [yields_ok, hkind, Kind.ident.injEq]
              grind
      all_goals
        simp only [yields_error]
        grind

theorem comparisonOfKind?_eq_some {comparison : Comparison} :
    comparisonOfKind? k = some comparison ↔ WritesComparison k comparison := by
  constructor
  · intro h
    unfold comparisonOfKind? at h
    split at h <;> cases h <;> constructor
  · intro h
    cases h <;> rfl

theorem yields_attributeComparison_none :
    Yields (attributeComparison finish opening ts) none rest ↔
      Next ts (· = .closeBracket) rest := by
  unfold attributeComparison
  split
  · next h => simp [not_next h]
  · next t more h =>
      rw [next_iff h]
      split
      · next hclose => simp [hclose]
      · next hclose => split <;> simp [hclose]

theorem yields_attributeComparison_some {comparison : Comparison} :
    Yields (attributeComparison finish opening ts) (some comparison) rest ↔
      Next ts (WritesComparison · comparison) rest := by
  simp only [← comparisonOfKind?_eq_some]
  unfold attributeComparison
  split
  · next h => simp [not_next h]
  · next t more h =>
      rw [next_iff h]
      split
      · next hclose => simp [hclose, comparisonOfKind?]
      · next hclose => split <;> simp [*]

theorem writesValue_iff {value : String} :
    WritesValue k value ↔ k = .ident value ∨ k = .string value := by
  constructor
  · intro h
    cases h with
    | ident => exact .inl rfl
    | string => exact .inr rfl
  · rintro (rfl | rfl)
    · exact .ident
    · exact .string

theorem yields_attributeValue {value : String} :
    Yields (attributeValue finish opening ts) value rest ↔ Next ts (WritesValue · value) rest := by
  unfold attributeValue
  split
  · next h => simp [not_next h]
  · next t more h =>
      rw [next_iff h, writesValue_iff]
      split <;> simp only [yields_ok, yields_error] <;> grind

theorem yields_attributeClose :
    Yields (attributeClose finish opening ts) () rest ↔ Next ts (· = .closeBracket) rest := by
  unfold attributeClose
  split
  · next h => simp [not_next h]
  · next t more h =>
      rw [next_iff h]
      split <;> simp [*]

-- A letter that tells how values compare.
def Tells (k : Kind) (letterCase : LetterCase) : Prop :=
  ∃ flag, k = .ident flag ∧ (Text.sameFolded flag "i" = true ∧ letterCase = .folded ∨
    Text.sameFolded flag "s" = true ∧ letterCase = .exact)

theorem writesFlag_iff {letterCase : LetterCase} :
    WritesFlag ks letterCase ↔
      ks = [] ∧ letterCase = .exact ∨ Led (Tells · letterCase) Blanks ks := by
  constructor
  · intro h
    cases h with
    | absent => exact .inl ⟨rfl, rfl⟩
    | folded hflag hbs => exact .inr (.intro ⟨_, rfl, .inl ⟨hflag, rfl⟩⟩ hbs)
    | exact hflag hbs => exact .inr (.intro ⟨_, rfl, .inr ⟨hflag, rfl⟩⟩ hbs)
  · rintro (⟨rfl, rfl⟩ | ⟨_, bs, rfl, ⟨flag, rfl, ⟨hflag, rfl⟩ | ⟨hflag, rfl⟩⟩, hbs⟩)
    · exact .absent
    · exact .folded hflag hbs
    · exact .exact hflag hbs

theorem yields_attributeFlag {letterCase : LetterCase} :
    Yields (attributeFlag finish ts) letterCase rest ↔ Next ts (Tells · letterCase) rest ∨
      letterCase = .exact ∧ skipBlanks ts = rest ∧ ∀ flag mid, ¬ Next ts (· = .ident flag) mid := by
  -- No word is both letters.
  have hne : Text.fold "i" ≠ Text.fold "s" := by decide
  unfold attributeFlag
  split
  · next flag start lexeme more h =>
      simp only [next_iff h, Tells, Text.sameFolded, beq_iff_eq, Kind.ident.injEq]
      split
      · simp only [yields_ok, Reading.weaken_value, Reading.weaken_rest]
        grind
      · split
        · simp only [yields_ok, Reading.weaken_value, Reading.weaken_rest]
          grind
        · simp only [yields_error]
          grind
  · next hother =>
      have hnot (flag : String) (mid : List Token) : ¬ Next ts (· = .ident flag) mid := by
        rintro ⟨⟨kind, start, lexeme⟩, ht, rfl⟩
        exact hother flag start lexeme mid ht
      have htells : ¬ Next ts (Tells · letterCase) rest := by
        rintro ⟨t, ht, flag, hkind, -⟩
        exact hnot flag rest ⟨t, ht, hkind⟩
      simp only [yields_ok, blanks, htells, false_or]
      grind

theorem yields_flag_close {letterCase : LetterCase} :
    (∃ mid, Yields (attributeFlag finish ts) letterCase mid ∧
      Yields (attributeClose finish opening mid) () rest) ↔
      letterCase = .exact ∧ Next ts (· = .closeBracket) rest ∨
        ∃ mid, Next ts (Tells · letterCase) mid ∧ Next mid (· = .closeBracket) rest := by
  simp only [yields_attributeFlag, yields_attributeClose]
  constructor
  · rintro ⟨mid, hletter | ⟨rfl, rfl, -⟩, hclose⟩
    · exact .inr ⟨mid, hletter, hclose⟩
    · exact .inl ⟨rfl, next_skipBlanks.1 hclose⟩
  · rintro (⟨rfl, hclose⟩ | ⟨mid, hletter, hclose⟩)
    · refine ⟨skipBlanks ts, .inr ⟨rfl, rfl, fun flag mid hident => ?_⟩, next_skipBlanks.2 hclose⟩
      obtain ⟨t, ht, hkind⟩ := hclose
      have hflag := ((next_iff ht).1 hident).1
      rw [hkind] at hflag
      cases hflag
    · exact ⟨mid, .inl hletter, hclose⟩

theorem writesAttribute_iff {selector : AttributeSelector} :
    WritesAttribute ks selector ↔ ∃ name, Spaced (· = .ident name) (fun ks =>
      selector = ⟨name, .exists, .exact⟩ ∧ Spaced (· = .closeBracket) (· = []) ks ∨
        ∃ comparison value letterCase, selector = ⟨name, .compare comparison value, letterCase⟩ ∧
          Spaced (WritesComparison · comparison) (Spaced (WritesValue · value) (fun ks =>
            letterCase = .exact ∧ Spaced (· = .closeBracket) (· = []) ks ∨
              Spaced (Tells · letterCase) (Spaced (· = .closeBracket) (· = [])) ks)) ks) ks := by
  constructor
  · intro h
    cases h with
    | @«exists» name as bs has hbs =>
        exact ⟨name, .intro has rfl (.inl ⟨rfl, .intro hbs rfl rfl⟩)⟩
    | @compare name value comparison letterCase c v as bs cs ds fs has hbs hc hcs hv hds hfs =>
        refine ⟨name, .intro has rfl (.inr ⟨comparison, value, letterCase, rfl,
          .intro hbs hc (.intro hcs hv ?_)⟩)⟩
        obtain ⟨rfl, rfl⟩ | ⟨k, es, rfl, hk, hes⟩ := writesFlag_iff.1 hfs
        · exact .inl ⟨rfl, .intro hds rfl rfl⟩
        · exact .inr (.intro hds hk (.intro hes rfl rfl))
  · rintro ⟨name, as, _, rfl, has, _, _, rfl, rfl, ⟨rfl, bs, _, rfl, hbs, _, _, rfl, rfl, rfl⟩ |
      ⟨comparison, value, letterCase, rfl, bs, _, rfl, hbs, c, _, rfl, hc, cs, _, rfl, hcs, v, _,
        rfl, hv, ⟨rfl, ds, _, rfl, hds, _, _, rfl, rfl, rfl⟩ |
          ⟨ds, _, rfl, hds, k, _, rfl, hk, es, _, rfl, hes, _, _, rfl, rfl, rfl⟩⟩⟩
    · exact .exists has hbs
    · exact .compare has hbs hc hcs hv hds .absent
    · exact .compare has hbs hc hcs hv hds (writesFlag_iff.2 (.inr (.intro hk hes)))

theorem yields_attributeSelector {selector : AttributeSelector} :
    Yields (attributeSelector finish opening ts) selector rest ↔
      Covers ts rest (WritesAttribute · selector) := by
  have hcomparison (comparison : Comparison) : ¬ WritesComparison .blank comparison := nofun
  have hvalue (value : String) : ¬ WritesValue .blank value := nofun
  have hletter (letterCase : LetterCase) : ¬ Tells .blank letterCase := nofun
  rw [covers_congr fun ks => writesAttribute_iff]
  simp only [covers_exists, covers_spaced, covers_or, covers_and, covers_nil, hcomparison, hvalue,
    hletter, reduceCtorEq, not_false_eq_true, exists_eq_right]
  unfold attributeSelector
  simp only [yields_bind]
  constructor
  · rintro ⟨name, m₁, hname, comparison?, m₂, hcomparison, h⟩
    refine ⟨name, m₁, (yields_attributeName.1 hname).1, ?_⟩
    cases comparison? with
    | none =>
        obtain ⟨rfl, rfl⟩ := yields_ok.1 h
        exact .inl ⟨rfl, yields_attributeComparison_none.1 hcomparison⟩
    | some comparison =>
        simp only [yields_bind] at h
        obtain ⟨value, m₃, hvalue, letterCase, m₄, hflag, ⟨⟩, m₅, hclose, hend⟩ := h
        obtain ⟨rfl, rfl⟩ := yields_ok.1 hend
        exact .inr ⟨comparison, value, letterCase, rfl, m₂,
          yields_attributeComparison_some.1 hcomparison, m₃, yields_attributeValue.1 hvalue,
          yields_flag_close.1 ⟨m₄, hflag, hclose⟩⟩
  · rintro ⟨name, m₁, hname, ⟨rfl, hclose⟩ |
      ⟨comparison, value, letterCase, rfl, m₂, hcomparison, m₃, hvalue, hend⟩⟩
    · refine ⟨name, m₁, yields_attributeName.2 ⟨hname, hclose.not_bar nofun⟩, none, rest,
        yields_attributeComparison_none.2 hclose, ?_⟩
      exact yields_ok.2 ⟨rfl, rfl⟩
    · obtain ⟨m₄, hflag, hclose⟩ := yields_flag_close.2 hend
      refine ⟨name, m₁, yields_attributeName.2 ⟨hname, hcomparison.not_bar nofun⟩,
        some comparison, m₂, yields_attributeComparison_some.2 hcomparison, ?_⟩
      simp only [yields_bind]
      exact ⟨value, m₃, yields_attributeValue.2 hvalue, letterCase, m₄, hflag, (), rest, hclose,
        yields_ok.2 ⟨rfl, rfl⟩⟩

end CssQuery.Reader
