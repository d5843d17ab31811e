import CssQuery.Proofs.Selector.Reader.Compound
import CssQuery.Selector.Reader.List

namespace CssQuery.Reader

open Grammar

variable {nested : ListReader} {Nested : List Kind → SelectorList → Prop} {finish : Nat}
  {combinator : Combinator} {sofar complex : Complex} {k : Kind} {ks : List Kind}
  {t : Token} {ts mid rest : List Token}

variable (finish ts) in
theorem combinator?_eq_none :
    combinator? finish ts = .ok none ↔ endsComplex (skipBlanks ts) = true := by
  unfold combinator?
  split
  · next h => simp [h, endsComplex]
  · next t more h =>
      rw [congrArg endsComplex h]
      split
      · next found hfound =>
          have hends : endsComplex (t :: more) = false := by
            unfold combinatorOfKind? at hfound
            split at hfound <;> simp_all [endsComplex]
          split <;> simp [hends]
      · split
        · next hends => simp [hends]
        · next hends => split <;> simp [hends]

theorem picks_combinator?_iff : Picks (combinator? finish ts) combinator rest ↔
    (∃ mid, Next ts (combinatorOfKind? · = some combinator) mid ∧ skipBlanks mid = rest ∧
      endsComplex rest = false) ∨
      combinator = .descendant ∧ skipBlanks ts = rest ∧ endsComplex rest = false ∧
        rest.length < ts.length ∧ ∀ t ∈ rest.head?, combinatorOfKind? t.kind = none := by
  have hempty : endsComplex [] = true := rfl
  unfold combinator?
  split
  · next h =>
      simp only [not_picks_none, not_next h, h, false_iff]
      grind
  · next t more h =>
      have hskip : skipBlanks ts = rest ↔ t :: more = rest := by rw [h]
      simp only [next_iff h, hskip]
      split
      · next found hfound =>
          split
          · simp only [not_picks_error, false_iff]
            grind
          · simp only [picks_some, Reading.weaken_value, Reading.weaken_rest, Reading.widen_value,
              Reading.widen_rest, blanks_value, blanks_rest]
            grind
      · next hnone =>
          split
          · simp only [not_picks_none, false_iff]
            grind
          · split
            · simp only [picks_some, blanks_value, blanks_rest, hskip]
              grind
            · simp only [not_picks_error, false_iff]
              grind

theorem writesCombinator_iff : WritesCombinator ks combinator ↔
    combinator = .descendant ∧ Blanks ks ∧ ks ≠ [] ∨
      Spaced (combinatorOfKind? · = some combinator) Blanks ks := by
  constructor
  · intro h
    cases h with
    | descendant hbs hne => exact .inl ⟨rfl, hbs, hne⟩
    | child has hbs | nextSibling has hbs | subsequentSibling has hbs =>
        exact .inr (.intro has rfl hbs)
  · rintro (⟨rfl, hbs, hne⟩ | ⟨as, _, rfl, has, k, bs, rfl, hk, hbs⟩)
    · exact .descendant hbs hne
    · unfold combinatorOfKind? at hk
      split at hk <;> cases hk
      · exact .child has hbs
      · exact .nextSibling has hbs
      · exact .subsequentSibling has hbs

theorem covers_combinator : Covers ts rest (WritesCombinator · combinator) ↔
    combinator = .descendant ∧ Covers ts rest Blanks ∧ rest.length < ts.length ∨
      ∃ mid, Next ts (combinatorOfKind? · = some combinator) mid ∧ Covers mid rest Blanks := by
  have hblank : ¬ combinatorOfKind? .blank = some combinator := nofun
  rw [covers_congr fun ks => writesCombinator_iff]
  simp only [covers_or, covers_and, covers_ne_nil, covers_spaced, hblank, not_false_eq_true]

theorem covers_of_picks (h : Picks (combinator? finish ts) combinator rest) :
    Covers ts rest (WritesCombinator · combinator) := by
  obtain ⟨mid, hnext, rfl, -⟩ | ⟨rfl, rfl, -, hlength, -⟩ := picks_combinator?_iff.1 h
  · exact covers_combinator.2 (.inr ⟨mid, hnext, covers_skipBlanks mid⟩)
  · exact covers_combinator.2 (.inl ⟨rfl, covers_skipBlanks ts, hlength⟩)

theorem opens_plain (h : opens k = true) :
    k ≠ .blank ∧ k ≠ .comma ∧ k ≠ .closeParen ∧ combinatorOfKind? k = none := by
  cases k with
  | delim symbol =>
      simp only [opens, Bool.or_eq_true, beq_iff_eq] at h
      rcases h with (rfl | rfl) | rfl <;> decide
  | ident | hash | openBracket | colon => simp [combinatorOfKind?]
  | _ => cases h

-- A compound selector has to begin where the combinator ends.
theorem picks_of_covers (h : Covers ts (t :: rest) (WritesCombinator · combinator))
    (ht : opens t.kind = true) : Picks (combinator? finish ts) combinator (t :: rest) := by
  obtain ⟨hblank, hcomma, hclose, hnone⟩ := opens_plain ht
  have hends : endsComplex (t :: rest) = false := by simp [endsComplex, hcomma, hclose]
  rw [picks_combinator?_iff]
  obtain ⟨rfl, hblanks, hlength⟩ | ⟨mid, hnext, hblanks⟩ := covers_combinator.1 h
  · have hskip := (skipBlanks_of_covers hblanks).trans (skipBlanks_cons hblank)
    exact .inr ⟨rfl, hskip, hends, hlength, by simpa using hnone⟩
  · have hskip := (skipBlanks_of_covers hblanks).trans (skipBlanks_cons hblank)
    exact .inl ⟨mid, hnext, hskip, hends⟩

-- What may follow when part of a complex selector is already read.
inductive Continues (Nested : List Kind → SelectorList → Prop) :
    Complex → List Kind → Complex → Prop
  | stop {sofar : Complex} : Continues Nested sofar [] sofar
  | step {sofar complex : Complex} {combinator : Combinator} {subject : Compound}
      {cs ks ms : List Kind} (hcs : WritesCombinator cs combinator)
      (hks : WritesCompound Nested ks subject)
      (hms : Continues Nested ⟨subject, ⟨combinator, sofar.subject⟩ :: sofar.links⟩ ms complex) :
      Continues Nested sofar (cs ++ (ks ++ ms)) complex

theorem Continues.snoc {combinator : Combinator} {subject : Compound} {ms cs : List Kind}
    (hms : Continues Nested sofar ms complex) (hcs : WritesCombinator cs combinator)
    (hks : WritesCompound Nested ks subject) :
    Continues Nested sofar (ms ++ (cs ++ ks))
      ⟨subject, ⟨combinator, complex.subject⟩ :: complex.links⟩ := by
  induction hms with
  | @stop sofar =>
      have hstep : Continues Nested sofar (cs ++ (ks ++ [])) _ := .step hcs hks .stop
      simpa using hstep
  | step hcs' hks' _ ih => simpa using ih.step hcs' hks'

theorem Continues.writes {ms : List Kind} (hms : Continues Nested sofar ms complex)
    (hks : WritesComplex Nested ks sofar) : WritesComplex Nested (ks ++ ms) complex := by
  induction hms generalizing ks with
  | stop => simpa using hks
  | step hcs' hks' _ ih => simpa using ih (hks.step hcs' hks')

theorem writesComplex_iff : WritesComplex Nested ks complex ↔ ∃ subject,
    Then (WritesCompound Nested · subject) (Continues Nested ⟨subject, []⟩ · complex) ks := by
  constructor
  · intro h
    induction h with
    | compound hks => exact ⟨_, _, _, (List.append_nil _).symm, hks, .stop⟩
    | step _ hcs hks ih =>
        obtain ⟨subject, as, bs, rfl, has, hbs⟩ := ih
        exact ⟨subject, as, _, List.append_assoc _ _ _, has, hbs.snoc hcs hks⟩
  · rintro ⟨subject, as, bs, rfl, has, hbs⟩
    exact hbs.writes (.compound has)

theorem continues_iff : Continues Nested sofar ks complex ↔ sofar = complex ∧ ks = [] ∨
    ∃ combinator subject, Then (WritesCombinator · combinator)
      (Then (WritesCompound Nested · subject)
        (Continues Nested ⟨subject, ⟨combinator, sofar.subject⟩ :: sofar.links⟩ · complex)) ks := by
  constructor
  · intro h
    cases h with
    | stop => exact .inl ⟨rfl, rfl⟩
    | step hcs hks hms => exact .inr ⟨_, _, .intro hcs (.intro hks hms)⟩
  · rintro (⟨rfl, rfl⟩ | ⟨_, _, _, _, rfl, hcs, _, _, rfl, hks, hms⟩)
    · exact .stop
    · exact .step hcs hks hms

theorem covers_continues : Covers ts rest (Continues Nested sofar · complex) ↔
    sofar = complex ∧ ts = rest ∨ ∃ combinator subject m₁ m₂,
      Covers ts m₁ (WritesCombinator · combinator) ∧
        Covers m₁ m₂ (WritesCompound Nested · subject) ∧ Covers m₂ rest
          (Continues Nested ⟨subject, ⟨combinator, sofar.subject⟩ :: sofar.links⟩ · complex) := by
  rw [covers_congr fun ks => continues_iff]
  simp only [covers_or, covers_and, covers_nil, covers_exists, covers_then, exists_and_left]

theorem yields_chain_iff : Yields (chain nested finish sofar ts) complex rest ↔
    sofar = complex ∧ skipBlanks ts = rest ∧ endsComplex rest = true ∨
      ∃ combinator subject m₁ m₂, Picks (combinator? finish ts) combinator m₁ ∧
        Yields (compound nested finish m₁) subject m₂ ∧ Yields (chain nested finish
          ⟨subject, ⟨combinator, sofar.subject⟩ :: sofar.links⟩ m₂) complex rest := by
  have hnone := combinator?_eq_none finish ts
  rw [chain]
  split
  · next h =>
      simp only [h, reduceCtorEq, false_iff] at hnone
      simp only [h, yields_error, not_picks_error, false_and, exists_false, or_false, false_iff]
      rintro ⟨-, rfl, hends⟩
      exact hnone hends
  · next h =>
      simp only [h, true_iff] at hnone
      simp only [h, yields_ok, blanks_value, blanks_rest, not_picks_none, false_and, exists_false,
        or_false, and_congr_right_iff]
      rintro -
      exact ⟨fun hrest => ⟨hrest, hrest ▸ hnone⟩, And.left⟩
  · next combinator h =>
      simp only [h, Except.ok.injEq, reduceCtorEq, false_iff] at hnone
      have hfirst : ¬ (sofar = complex ∧ skipBlanks ts = rest ∧ endsComplex rest = true) := by
        rintro ⟨-, rfl, hends⟩
        exact hnone hends
      simp only [h, hfirst, false_or, picks_some, and_assoc, exists_and_left, exists_eq_left']
      split
      · next hcompound => simp [hcompound]
      · next subject hcompound =>
          simp only [hcompound, yields_ok, and_assoc, exists_and_left, exists_eq_left']
          split
          · next hchain => simp [hchain]
          · next hchain => simp [hchain]

theorem opens_of_covers {subject : Compound}
    (h : Covers ts rest (WritesCompound Nested · subject)) :
    ∃ t more, ts = t :: more ∧ opens t.kind = true := by
  obtain ⟨used, rfl, hks⟩ := h
  obtain ⟨k, more, hmap, hk⟩ := opens_of_compound hks
  obtain ⟨t, back, rfl, rfl, rfl⟩ := List.map_eq_cons_iff.1 hmap
  exact ⟨t, back ++ rest, rfl, hk⟩

theorem halts_iff : Halts ts ↔ ∀ t more, ts = t :: more → ¬ opens t.kind = true := by
  cases ts <;> simp [Halts]

theorem halts_of_skipBlanks (h : Halts (skipBlanks ts)) : Halts ts := by
  cases ts with
  | nil => exact h
  | cons t ts =>
      by_cases hblank : t.kind = .blank
      · simp [Halts, hblank, opens]
      · rwa [skipBlanks_cons hblank] at h

theorem halts_of_combinator (h : Covers ts rest (WritesCombinator · combinator)) : Halts ts := by
  obtain ⟨-, ⟨used, rfl, hblanks⟩, hlength⟩ | ⟨mid, ⟨t, hskip, ht⟩, -⟩ := covers_combinator.1 h
  · cases used with
    | nil => exact absurd hlength (Nat.lt_irrefl _)
    | cons t more => simp [Halts, hblanks t.kind (by simp), opens]
  · refine halts_of_skipBlanks ?_
    rw [hskip, halts_iff]
    rintro _ _ ⟨⟩ hopens
    rw [(opens_plain hopens).2.2.2] at ht
    cases ht

theorem halts_of_ends (h : endsComplex ts = true) : Halts ts := by
  rw [halts_iff]
  rintro t more rfl hopens
  obtain ⟨-, hcomma, hclose, -⟩ := opens_plain hopens
  simp [endsComplex, hcomma, hclose] at h

theorem skipBlanks_of_ends (h : endsComplex ts = true) : skipBlanks ts = ts := by
  cases ts with
  | nil => rfl
  | cons t ts =>
      refine skipBlanks_cons fun hblank => ?_
      simp [endsComplex, hblank] at h

-- Where a compound ended, no simple selector can follow.
theorem halts_of_continues (hts : Covers ts mid (Continues Nested sofar · complex))
    (hmid : Covers mid rest Blanks) (hends : endsComplex rest = true) : Halts ts := by
  obtain ⟨-, rfl⟩ | ⟨_, _, _, _, hcombinator, -⟩ := covers_continues.1 hts
  · refine halts_of_skipBlanks ?_
    rw [skipBlanks_of_covers hmid, skipBlanks_of_ends hends]
    exact halts_of_ends hends
  · exact halts_of_combinator hcombinator

theorem yields_chain (hnested : Reads nested Nested) :
    Yields (chain nested finish sofar ts) complex rest ↔
      Covers ts rest (Then (Continues Nested sofar · complex) Blanks) ∧
        endsComplex rest = true := by
  obtain ⟨n, hn⟩ : ∃ n, ts.length = n := ⟨_, rfl⟩
  induction n using Nat.strongRecOn generalizing ts sofar with
  | _ n ih =>
      subst hn
      rw [yields_chain_iff, covers_then]
      constructor
      · rintro (⟨rfl, rfl, hends⟩ | ⟨combinator, subject, m₁, m₂, hcombinator, hsubject, hchain⟩)
        · exact ⟨⟨ts, covers_continues.2 (.inl ⟨rfl, rfl⟩), covers_skipBlanks ts⟩, hends⟩
        · have hlength : m₂.length < ts.length :=
            Nat.lt_of_lt_of_le hsubject.within (Nat.le_of_lt_succ hcombinator.1)
          obtain ⟨hcontinues, hends⟩ := (ih _ hlength rfl).1 hchain
          obtain ⟨m₃, hcontinues, hblanks⟩ := covers_then.1 hcontinues
          have hsubject := ((yields_compound hnested).1 hsubject).1
          exact ⟨⟨m₃, covers_continues.2 (.inr ⟨combinator, subject, m₁, m₂,
            covers_of_picks hcombinator, hsubject, hcontinues⟩), hblanks⟩, hends⟩
      · rintro ⟨⟨m₃, hcovers, hblanks⟩, hends⟩
        obtain ⟨rfl, rfl⟩ | ⟨combinator, subject, m₁, m₂, hcombinator, hsubject, hcontinues⟩ :=
          covers_continues.1 hcovers
        · exact .inl ⟨rfl, (skipBlanks_of_covers hblanks).trans (skipBlanks_of_ends hends), hends⟩
        · obtain ⟨t, more, rfl, ht⟩ := opens_of_covers hsubject
          have hpicks : Picks (combinator? finish ts) combinator (t :: more) :=
            picks_of_covers hcombinator ht
          have hyields : Yields (compound nested finish (t :: more)) subject m₂ :=
            (yields_compound hnested).2 ⟨hsubject, halts_of_continues hcontinues hblanks hends⟩
          have hlength : m₂.length < ts.length :=
            Nat.lt_of_lt_of_le hyields.within (Nat.le_of_lt_succ hpicks.1)
          have hchain := (ih _ hlength rfl).2 ⟨covers_then.2 ⟨m₃, hcontinues, hblanks⟩, hends⟩
          exact .inr ⟨combinator, subject, t :: more, m₂, hpicks, hyields, hchain⟩

theorem yields_complex_iff : Yields (Reader.complex nested finish ts) complex rest ↔
    ∃ subject mid, Yields (compound nested finish ts) subject mid ∧
      Yields (chain nested finish ⟨subject, []⟩ mid) complex rest := by
  rw [Reader.complex]
  split
  · next h => simp [h]
  · next subject h =>
      simp only [h, yields_ok, yields_map, and_assoc, exists_and_left, exists_eq_left']
      constructor
      · rintro ⟨found, left, hchain, rfl, rfl⟩
        exact hchain
      · intro hchain
        exact ⟨complex, rest, hchain, rfl, rfl⟩

theorem yields_complex (hnested : Reads nested Nested) :
    Yields (Reader.complex nested finish ts) complex rest ↔
      Covers ts rest (Then (WritesComplex Nested · complex) Blanks) ∧ endsComplex rest = true := by
  rw [yields_complex_iff, covers_then]
  simp only [covers_congr fun ks => writesComplex_iff, covers_exists, covers_then]
  constructor
  · rintro ⟨subject, mid, hsubject, hchain⟩
    obtain ⟨hcontinues, hends⟩ := (yields_chain hnested).1 hchain
    obtain ⟨m, hcontinues, hblanks⟩ := covers_then.1 hcontinues
    have hsubject := ((yields_compound hnested).1 hsubject).1
    exact ⟨⟨m, ⟨subject, mid, hsubject, hcontinues⟩, hblanks⟩, hends⟩
  · rintro ⟨⟨m, ⟨subject, mid, hsubject, hcontinues⟩, hblanks⟩, hends⟩
    have hhalts := halts_of_continues hcontinues hblanks hends
    have hchain := covers_then.2 ⟨m, hcontinues, hblanks⟩
    exact ⟨subject, mid, (yields_compound hnested).2 ⟨hsubject, hhalts⟩,
      (yields_chain hnested).2 ⟨hchain, hends⟩⟩

variable {more : SelectorList}

theorem not_yields_selectorList_nil : ¬ Yields (selectorList nested finish ts) [] rest := by
  rw [selectorList]
  split
  · simp
  · simp only
    split
    · simp
    · split <;> simp

theorem finds_comma? : Finds (comma? ts) () rest ↔ Covers ts rest (Led (· = .comma) (· = [])) := by
  cases ts with
  | nil => simp [comma?]
  | cons t ts =>
      rw [comma?, covers_led_cons, covers_nil]
      split <;> simp [*]

theorem comma?_eq_none : comma? ts = none ↔ ∀ t ∈ ts.head?, t.kind ≠ .comma := by
  cases ts with
  | nil => simp [comma?]
  | cons t ts => simp [comma?]

theorem yields_selectorList_cons :
    Yields (selectorList nested finish ts) (complex :: more) rest ↔
      ∃ mid, Yields (Reader.complex nested finish (skipBlanks ts)) complex mid ∧
        (more = [] ∧ comma? mid = none ∧ mid = rest ∨
          ∃ left, Finds (comma? mid) () left ∧
            Yields (selectorList nested finish left) more rest) := by
  rw [selectorList]
  split
  · next h => simp [h]
  · next read h =>
      simp only [h, yields_ok, and_assoc, exists_and_left, exists_eq_left']
      split
      · next hcomma =>
          change comma? read.rest = none at hcomma
          rw [yields_ok]
          change [read.value] = complex :: more ∧ read.rest = rest ↔ _
          simp [hcomma, eq_comm, and_assoc]
      · next comma hcomma =>
          have hsome : comma? read.rest = some comma := hcomma
          have hnone : comma? read.rest ≠ none :=
            fun h => Option.some_ne_none _ (hsome.symm.trans h)
          have hfinds (left : List Token) :
              Finds (comma? read.rest) () left ↔ comma.rest = left := by
            rw [hsome]
            exact finds_some.trans (and_iff_right rfl)
          simp only [hnone, hfinds, false_and, and_false, false_or, exists_eq_left']
          split
          · next hlist => simp [hlist]
          · next found hlist =>
              rw [yields_ok, hlist, yields_ok]
              change read.value :: found.value = complex :: more ∧ found.rest = rest ↔ _
              rw [List.cons.injEq, and_assoc]

theorem writesList_iff : WritesList Nested ks (complex :: more) ↔
    Then Blanks (Then (Then (WritesComplex Nested · complex) Blanks) (fun ks =>
      more = [] ∧ ks = [] ∨ Led (· = .comma) (WritesList Nested · more) ks)) ks := by
  constructor
  · intro h
    cases h with
    | one has hks hbs =>
        refine .intro has ?_
        rw [← List.append_nil (_ ++ _)]
        exact .intro (.intro hks hbs) (.inl ⟨rfl, rfl⟩)
    | cons has hks hbs hms =>
        refine .intro has ?_
        rw [← List.append_assoc]
        exact .intro (.intro hks hbs) (.inr (.intro rfl hms))
  · rintro ⟨as, _, rfl, has, _, _, rfl, ⟨ks, bs, rfl, hks, hbs⟩,
      ⟨rfl, rfl⟩ | ⟨_, ms, rfl, rfl, hms⟩⟩
    · simpa using WritesList.one has hks hbs
    · simpa using WritesList.cons has hks hbs hms

theorem not_writesList_nil : ¬ WritesList Nested ks [] := nofun

theorem closed_iff : ts = [] ∨ CloseAhead ts ↔
    endsComplex ts = true ∧ ∀ t ∈ ts.head?, t.kind ≠ .comma := by
  cases ts with
  | nil => simp [endsComplex]
  | cons t ts =>
      simp only [CloseAhead, endsComplex, List.head?_cons, Option.mem_some_iff, forall_eq',
        reduceCtorEq, false_or, List.cons.injEq, Bool.or_eq_true, beq_iff_eq]
      grind

theorem skipBlanks_of_complex {P : List Kind → Prop}
    (h : Covers ts rest (Then (WritesComplex Nested · complex) P)) : skipBlanks ts = ts := by
  obtain ⟨mid, hcomplex, -⟩ := covers_then.1 h
  rw [covers_congr fun ks => writesComplex_iff, covers_exists] at hcomplex
  obtain ⟨subject, hsubject⟩ := hcomplex
  obtain ⟨_, hsubject, -⟩ := covers_then.1 hsubject
  obtain ⟨t, more, rfl, ht⟩ := opens_of_covers hsubject
  exact skipBlanks_cons (opens_plain ht).1

theorem yields_selectorList (hnested : Reads nested Nested) {selectors : SelectorList} :
    Yields (selectorList nested finish ts) selectors rest ↔
      (rest = [] ∨ CloseAhead rest) ∧ Covers ts rest (WritesList Nested · selectors) := by
  induction selectors generalizing ts with
  | nil => simp [not_yields_selectorList_nil, not_writesList_nil, Covers]
  | cons complex more ih =>
      rw [yields_selectorList_cons, covers_congr fun ks => writesList_iff, covers_then]
      simp only [covers_then (P := Then _ _), covers_or, covers_and, covers_nil, covers_led, ih,
        yields_complex hnested, finds_comma?, comma?_eq_none]
      constructor
      · rintro ⟨mid, ⟨hcomplex, hends⟩, ⟨rfl, hcomma, rfl⟩ |
          ⟨_, ⟨t, left, rfl, ht, rfl⟩, hclosed, hmore⟩⟩
        · have hclosed := closed_iff.2 ⟨hends, hcomma⟩
          exact ⟨hclosed, _, covers_skipBlanks ts, mid, hcomplex, .inl ⟨rfl, rfl⟩⟩
        · exact ⟨hclosed, _, covers_skipBlanks ts, _, hcomplex, .inr ⟨t, left, rfl, ht, hmore⟩⟩
      · rintro ⟨hclosed, m₁, hblanks, mid, hcomplex, hmore⟩
        have hskip : skipBlanks ts = m₁ :=
          (skipBlanks_of_covers hblanks).trans (skipBlanks_of_complex hcomplex)
        subst hskip
        obtain ⟨rfl, rfl⟩ | ⟨t, left, rfl, ht, hmore⟩ := hmore
        · obtain ⟨hends, hcomma⟩ := closed_iff.1 hclosed
          exact ⟨mid, ⟨hcomplex, hends⟩, .inl ⟨rfl, hcomma, rfl⟩⟩
        · have hends : endsComplex (t :: left) = true := by simp [endsComplex, ht]
          exact ⟨_, ⟨hcomplex, hends⟩, .inr ⟨left, ⟨t, left, rfl, ht, rfl⟩, hclosed, hmore⟩⟩

theorem skipBlanks_ne_nil {selectors : SelectorList}
    (h : Yields (selectorList nested finish ts) selectors rest) : skipBlanks ts ≠ [] := by
  cases selectors with
  | nil => exact absurd h not_yields_selectorList_nil
  | cons complex more =>
      obtain ⟨mid, hcomplex, -⟩ := yields_selectorList_cons.1 h
      exact List.ne_nil_of_length_pos (Nat.zero_lt_of_lt hcomplex.within)

theorem reads_nestedList (finish limit room : Nat) :
    Reads (nestedList finish limit room) (WritesNested room) := by
  induction room with
  | zero =>
      intro colon ts selectors rest
      simp [nestedList, WritesNested, Covers]
  | succ room ih =>
      intro colon ts selectors rest
      rw [nestedList, WritesNested, ← yields_selectorList ih]
      split
      · next hempty =>
          simp only [yields_error, false_iff]
          exact fun h => skipBlanks_ne_nil h (List.isEmpty_iff.1 hempty)
      · rfl

end CssQuery.Reader

namespace CssQuery.SelectorList

open Reader Grammar

variable {text : String} {limit : Nat} {tokens : List Token}

theorem ofText_eq_ok {list : SelectorList} (h : Token.scan text = .ok tokens) :
    ofText text limit = .ok list ↔ Writes limit (tokens.map Token.kind) list := by
  have hyields : Yields (selectorList (nestedList (Text.byteSize text.toList) limit limit)
      (Text.byteSize text.toList) tokens) list [] ↔ Writes limit (tokens.map Token.kind) list := by
    rw [yields_selectorList (reads_nestedList _ limit limit)]
    simp [Covers, Writes]
  rw [← hyields, ofText, h]
  simp only [bind, Except.bind]
  split
  · next hempty =>
      simp only [throw, throwThe, MonadExceptOf.throw, reduceCtorEq, false_iff]
      exact fun hlist => skipBlanks_ne_nil hlist (List.isEmpty_iff.1 hempty)
  · cases hread : selectorList (nestedList (Text.byteSize text.toList) limit limit)
      (Text.byteSize text.toList) tokens with
    | error _ => simp
    | ok read =>
        obtain ⟨value, left, within⟩ := read
        cases left with
        | nil => simp [pure, Except.pure]
        | cons t left => simp [throw, throwThe, MonadExceptOf.throw]

-- Reading finds the one list that the kinds of the tokens write, and fails if there is none.
theorem ofText_eq_ok_iff (h : Token.scan text = .ok tokens) :
    (∀ list, ofText text limit = .ok list ↔ Writes limit (tokens.map Token.kind) list) ∧
      ∀ a b, Writes limit (tokens.map Token.kind) a → Writes limit (tokens.map Token.kind) b →
        a = b := by
  refine ⟨fun list => ofText_eq_ok h, fun a b ha hb => ?_⟩
  have ha := (ofText_eq_ok h).2 ha
  have hb := (ofText_eq_ok h).2 hb
  exact Except.ok.inj (ha.symm.trans hb)

def guarded : List Kind :=
  [.blank, .ident "a", .colon, .function "NOT", .blank, .ident "b", .comma, .openBracket,
    .ident "d", .delim '=', .string "e", .ident "I", .closeBracket, .closeParen, .delim '>',
    .delim '*']

def guardedList : SelectorList :=
  [⟨[.universal], [⟨.child, [.tag "a", .noneOf [⟨[.tag "b"], []⟩,
    ⟨[.hasAttribute ⟨"d", .compare .equals "e", .folded⟩], []⟩]]⟩]⟩]

theorem ofText_eq_ok_iff_guarded :
    (Token.scan " a/**/:NOT( b,[d='e'I])>*").map (·.map Token.kind) = .ok guarded ∧
      (∀ list, Writes 1 guarded list ↔ list = guardedList) ∧ ∀ list, ¬ Writes 0 guarded list := by
  have hkinds : (Token.scan " a/**/:NOT( b,[d='e'I])>*").map (·.map Token.kind) = .ok guarded := by
    with_unfolding_all rfl
  have hone : ofText " a/**/:NOT( b,[d='e'I])>*" 1 = .ok guardedList := by with_unfolding_all rfl
  have hzero : ofText " a/**/:NOT( b,[d='e'I])>*" 0 = .error (.malformed 6 (.nestedTooDeep 0)) := by
    with_unfolding_all rfl
  refine ⟨hkinds, ?_⟩
  cases hscan : Token.scan " a/**/:NOT( b,[d='e'I])>*" with
  | error _ => simp [hscan, Except.map] at hkinds
  | ok tokens =>
      rw [hscan] at hkinds
      rw [← Except.ok.inj hkinds]
      constructor
      · intro list
        rw [← (ofText_eq_ok_iff hscan).1, hone, Except.ok.injEq, eq_comm]
      · intro list hwrites
        rw [← (ofText_eq_ok_iff hscan).1, hzero] at hwrites
        cases hwrites

end CssQuery.SelectorList
