import CssQuery.Proofs.Reading
import CssQuery.Proofs.Selector.Grammar
import CssQuery.Selector.Reader.Basic

namespace CssQuery.Reader

open Grammar

variable {t : Token} {ts mid rest : List Token}

@[simp] theorem blanks_value {α : Type} (v : α) (ts : List Token) : (blanks v ts).value = v := rfl

@[simp] theorem blanks_rest {α : Type} (v : α) (ts : List Token) :
    (blanks v ts).rest = skipBlanks ts := rfl

-- The tokens before the rest have kinds of a certain form.
def Covers (ts rest : List Token) (P : List Kind → Prop) : Prop :=
  ∃ used, ts = used ++ rest ∧ P (used.map Token.kind)

variable {P Q : List Kind → Prop} {p : Kind → Prop}

theorem Covers.mono (h : Covers ts rest P) (hPQ : ∀ ks, P ks → Q ks) : Covers ts rest Q := by
  obtain ⟨used, hts, hks⟩ := h
  exact ⟨used, hts, hPQ _ hks⟩

theorem covers_congr (h : ∀ ks, P ks ↔ Q ks) : Covers ts rest P ↔ Covers ts rest Q :=
  ⟨fun hP => hP.mono fun ks => (h ks).1, fun hQ => hQ.mono fun ks => (h ks).2⟩

theorem covers_or : Covers ts rest (fun ks => P ks ∨ Q ks) ↔
    Covers ts rest P ∨ Covers ts rest Q := by
  simp only [Covers, and_or_left, exists_or]

theorem covers_exists {ι : Sort _} {P : ι → List Kind → Prop} :
    Covers ts rest (fun ks => ∃ i, P i ks) ↔ ∃ i, Covers ts rest (P i) := by
  simp only [Covers, ← exists_and_left]
  exact exists_comm

theorem covers_and {q : Prop} : Covers ts rest (fun ks => q ∧ P ks) ↔ q ∧ Covers ts rest P := by
  simp only [Covers, and_left_comm (b := q), exists_and_left]

@[simp] theorem covers_nil : Covers ts rest (· = []) ↔ ts = rest := by
  simp [Covers]

theorem covers_ne_nil : Covers ts rest (fun ks => P ks ∧ ks ≠ []) ↔
    Covers ts rest P ∧ rest.length < ts.length := by
  constructor
  · rintro ⟨used, rfl, hks, hne⟩
    refine ⟨⟨used, rfl, hks⟩, ?_⟩
    have hpos := List.length_pos_iff.2 hne
    simpa using hpos
  · rintro ⟨⟨used, rfl, hks⟩, hlt⟩
    refine ⟨used, rfl, hks, ?_⟩
    rintro hnil
    obtain rfl := List.map_eq_nil_iff.1 hnil
    exact Nat.lt_irrefl _ hlt

-- A form and another one behind it.
def Then (P Q : List Kind → Prop) (ks : List Kind) : Prop := ∃ as bs, ks = as ++ bs ∧ P as ∧ Q bs

theorem Then.intro {as bs : List Kind} (has : P as) (hbs : Q bs) : Then P Q (as ++ bs) :=
  ⟨as, bs, rfl, has, hbs⟩

theorem covers_then :
    Covers ts rest (Then P Q) ↔ ∃ mid, Covers ts mid P ∧ Covers mid rest Q := by
  constructor
  · rintro ⟨used, rfl, as, bs, hks, has, hbs⟩
    obtain ⟨front, back, rfl, rfl, rfl⟩ := List.map_eq_append_iff.1 hks
    exact ⟨back ++ rest, ⟨front, List.append_assoc _ _ _, has⟩, back, rfl, hbs⟩
  · rintro ⟨mid, ⟨front, rfl, has⟩, back, rfl, hbs⟩
    refine ⟨front ++ back, (List.append_assoc _ _ _).symm, ?_⟩
    rw [List.map_append]
    exact .intro has hbs

-- A token of some kinds and a form behind it.
def Led (p : Kind → Prop) (Q : List Kind → Prop) (ks : List Kind) : Prop :=
  ∃ k bs, ks = k :: bs ∧ p k ∧ Q bs

theorem Led.intro {k : Kind} {bs : List Kind} (hk : p k) (hbs : Q bs) : Led p Q (k :: bs) :=
  ⟨k, bs, rfl, hk, hbs⟩

theorem covers_led :
    Covers ts rest (Led p Q) ↔ ∃ t mid, ts = t :: mid ∧ p t.kind ∧ Covers mid rest Q := by
  constructor
  · rintro ⟨used, rfl, k, bs, hks, hk, hbs⟩
    obtain ⟨t, back, rfl, rfl, rfl⟩ := List.map_eq_cons_iff.1 hks
    exact ⟨t, back ++ rest, rfl, hk, back, rfl, hbs⟩
  · rintro ⟨t, mid, rfl, ht, back, rfl, hbs⟩
    exact ⟨t :: back, rfl, .intro ht hbs⟩

@[simp] theorem covers_led_cons :
    Covers (t :: ts) rest (Led p Q) ↔ p t.kind ∧ Covers ts rest Q := by
  rw [covers_led]
  constructor
  · rintro ⟨_, _, ⟨⟩, ht, hts⟩
    exact ⟨ht, hts⟩
  · rintro ⟨ht, hts⟩
    exact ⟨t, ts, rfl, ht, hts⟩

@[simp] theorem not_covers_led_nil : ¬ Covers [] rest (Led p Q) := by
  rw [covers_led]
  rintro ⟨_, _, ⟨⟩, -⟩

theorem skipBlanks_of_covers (h : Covers ts rest Blanks) : skipBlanks ts = skipBlanks rest := by
  obtain ⟨used, rfl, hks⟩ := h
  refine List.dropWhile_append_of_pos fun t ht => ?_
  exact beq_iff_eq.2 (hks _ (List.mem_map_of_mem ht))

theorem covers_skipBlanks (ts : List Token) : Covers ts (skipBlanks ts) Blanks := by
  refine ⟨ts.takeWhile Token.isBlank, List.takeWhile_append_dropWhile.symm, ?_⟩
  intro k hk
  obtain ⟨t, ht, rfl⟩ := List.mem_map.1 hk
  exact beq_iff_eq.1 (List.all_eq_true.1 List.all_takeWhile t ht)

theorem skipBlanks_cons (h : t.kind ≠ .blank) : skipBlanks (t :: rest) = t :: rest :=
  List.dropWhile_cons_of_neg (by simpa [Token.isBlank] using h)

@[simp] theorem skipBlanks_idem (ts : List Token) : skipBlanks (skipBlanks ts) = skipBlanks ts :=
  (skipBlanks_of_covers (covers_skipBlanks ts)).symm

-- Behind any blanks stands a token of some kinds.
def Next (ts : List Token) (p : Kind → Prop) (rest : List Token) : Prop :=
  ∃ t, skipBlanks ts = t :: rest ∧ p t.kind

theorem not_next (h : skipBlanks ts = []) : ¬ Next ts p rest := by
  rintro ⟨t, ht, -⟩
  cases h.symm.trans ht

theorem next_iff (h : skipBlanks ts = t :: mid) : Next ts p rest ↔ p t.kind ∧ mid = rest := by
  simp only [Next, h, List.cons.injEq]
  constructor
  · rintro ⟨_, ⟨rfl, rfl⟩, ht⟩
    exact ⟨ht, rfl⟩
  · rintro ⟨ht, rfl⟩
    exact ⟨t, ⟨rfl, rfl⟩, ht⟩

@[simp] theorem next_skipBlanks : Next (skipBlanks ts) p rest ↔ Next ts p rest := by
  simp only [Next, skipBlanks_idem]

-- The same where blanks may stand before the token.
def Spaced (p : Kind → Prop) (Q : List Kind → Prop) : List Kind → Prop := Then Blanks (Led p Q)

theorem Spaced.intro {k : Kind} {as bs : List Kind} (has : Blanks as) (hk : p k) (hbs : Q bs) :
    Spaced p Q (as ++ k :: bs) := Then.intro has (Led.intro hk hbs)

theorem covers_spaced (hp : ¬ p .blank) :
    Covers ts rest (Spaced p Q) ↔ ∃ mid, Next ts p mid ∧ Covers mid rest Q := by
  simp only [Spaced, covers_then, covers_led]
  constructor
  · rintro ⟨_, hblanks, t, mid, rfl, ht, hmid⟩
    have hblank : t.kind ≠ .blank := fun h => hp (h ▸ ht)
    exact ⟨mid, ⟨t, (skipBlanks_of_covers hblanks).trans (skipBlanks_cons hblank), ht⟩, hmid⟩
  · rintro ⟨mid, ⟨t, hts, ht⟩, hmid⟩
    exact ⟨t :: mid, hts ▸ covers_skipBlanks ts, t, mid, rfl, ht, hmid⟩

theorem Next.not_bar (h : Next ts p rest) (hp : ¬ p (.delim '|')) : startsWithBar ts = false := by
  obtain ⟨t, ht, hpt⟩ := h
  cases ts with
  | nil => rfl
  | cons u us =>
      by_cases hu : u.kind = .blank
      · simp [startsWithBar, hu]
      · obtain ⟨rfl, rfl⟩ := List.cons_eq_cons.1 ((skipBlanks_cons hu).symm.trans ht)
        have hbar : u.kind ≠ .delim '|' := fun h => hp (h ▸ hpt)
        simpa [startsWithBar] using hbar

end CssQuery.Reader
