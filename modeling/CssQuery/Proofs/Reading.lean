import CssQuery.Reading

namespace CssQuery

variable {ε σ α β : Type} {bound bound' : Nat} {v : α} {w : β} {rest : List σ}

theorem map_eq_error {result : Except ε α} {f : α → β} {error : ε} :
    result.map f = .error error ↔ result = .error error := by
  cases result <;> simp [Except.map]

theorem bind_eq_error {result : Except ε α} {next : α → Except ε β} {error : ε} :
    (result >>= next) = .error error ↔
      result = .error error ∨ ∃ v, result = .ok v ∧ next v = .error error := by
  cases result <;> simp [bind, Except.bind]

-- A reader found this value and leaves these symbols.
def Finds (found : Option (Reading σ α bound)) (v : α) (rest : List σ) : Prop :=
  ∃ within, found = some ⟨v, rest, within⟩

section Finds

variable {found : Option (Reading σ α bound)}

theorem Finds.within (h : Finds found v rest) : rest.length < bound := h.1

@[simp] theorem finds_none : ¬ Finds (none : Option (Reading σ α bound)) v rest := by
  rintro ⟨_, h⟩
  cases h

@[simp] theorem finds_some {read : Reading σ α bound} :
    Finds (some read) v rest ↔ read.value = v ∧ read.rest = rest := by
  obtain ⟨value, left, within⟩ := read
  constructor
  · rintro ⟨_, h⟩
    cases h
    exact ⟨rfl, rfl⟩
  · rintro ⟨rfl, rfl⟩
    exact ⟨within, rfl⟩

theorem finds_map {f : Reading σ α bound → Reading σ β bound'} :
    Finds (found.map f) w rest ↔
      ∃ v mid, ∃ h : Finds found v mid,
        (f ⟨v, mid, h.within⟩).value = w ∧ (f ⟨v, mid, h.within⟩).rest = rest := by
  constructor
  · intro h
    cases found with
    | none => exact absurd h finds_none
    | some read => exact ⟨read.value, read.rest, finds_some.2 ⟨rfl, rfl⟩, finds_some.1 h⟩
  · rintro ⟨v, mid, ⟨_, rfl⟩, h⟩
    exact finds_some.2 h

end Finds

-- The same for a reader that may fail.
def Yields (result : Except ε (Reading σ α bound)) (v : α) (rest : List σ) : Prop :=
  Finds result.toOption v rest

section Yields

variable {result : Except ε (Reading σ α bound)}

theorem Yields.within (h : Yields result v rest) : rest.length < bound := Finds.within h

@[simp] theorem yields_error (error : ε) :
    ¬ Yields (.error error : Except ε (Reading σ α bound)) v rest := finds_none

@[simp] theorem yields_ok {read : Reading σ α bound} :
    Yields (.ok read : Except ε _) v rest ↔ read.value = v ∧ read.rest = rest := finds_some

theorem yields_iff : Yields result v rest ↔ ∃ within, result = .ok ⟨v, rest, within⟩ := by
  cases result with
  | error _ => simp
  | ok read => simp [Yields, Finds, Except.toOption]

theorem yields_bind {next : Reading σ α bound → Except ε (Reading σ β bound')} :
    Yields (result >>= next) w rest ↔
      ∃ v mid, ∃ h : Yields result v mid, Yields (next ⟨v, mid, h.within⟩) w rest := by
  constructor
  · intro h
    cases result with
    | error error => exact absurd h (yields_error error)
    | ok read => exact ⟨read.value, read.rest, yields_ok.2 ⟨rfl, rfl⟩, h⟩
  · rintro ⟨v, mid, hread, h⟩
    cases result with
    | error error => exact absurd hread (yields_error error)
    | ok read =>
        obtain ⟨rfl, rfl⟩ := yields_ok.1 hread
        exact h

theorem yields_map {f : Reading σ α bound → Reading σ β bound'} :
    Yields (result.map f) w rest ↔
      ∃ v mid, ∃ h : Yields result v mid,
        (f ⟨v, mid, h.within⟩).value = w ∧ (f ⟨v, mid, h.within⟩).rest = rest := by
  have hmap : (result.map f).toOption = result.toOption.map f := by cases result <;> rfl
  rw [Yields, hmap, finds_map]
  rfl

theorem yields_map_value {f : α → β} :
    Yields (result.map (·.map f)) w rest ↔ ∃ v, Yields result v rest ∧ f v = w := by
  rw [yields_map]
  constructor
  · rintro ⟨v, _, h, hv, rfl⟩
    exact ⟨v, h, hv⟩
  · rintro ⟨v, h, hv⟩
    exact ⟨v, rest, h, hv, rfl⟩

theorem yields_map_weaken : Yields (result.map (·.weaken)) v rest ↔ Yields result v rest := by
  rw [yields_map]
  constructor
  · rintro ⟨_, _, h, rfl, rfl⟩
    exact h
  · intro h
    exact ⟨v, rest, h, rfl, rfl⟩

end Yields

-- The same for a reader that may fail or find nothing.
def Picks (result : Except ε (Option (Reading σ α bound))) (v : α) (rest : List σ) : Prop :=
  Finds result.toOption.join v rest

section Picks

variable {result : Except ε (Reading σ α bound)} {f : Reading σ α bound → Reading σ β bound'}

@[simp] theorem not_picks_error (error : ε) :
    ¬ Picks (.error error : Except ε (Option (Reading σ α bound))) v rest := finds_none

@[simp] theorem not_picks_none :
    ¬ Picks (.ok none : Except ε (Option (Reading σ α bound))) v rest := finds_none

@[simp] theorem picks_some {read : Reading σ α bound} :
    Picks (.ok (some read) : Except ε _) v rest ↔ read.value = v ∧ read.rest = rest := finds_some

theorem picks_iff {found : Except ε (Option (Reading σ α bound))} :
    Picks found v rest ↔ ∃ within, found = .ok (some ⟨v, rest, within⟩) := by
  cases found with
  | error _ => simp
  | ok read => simp [Picks, Finds, Except.toOption]

theorem picks_map :
    Picks (result.map fun read => some (f read)) w rest ↔ Yields (result.map f) w rest := by
  cases result with
  | error _ => exact Iff.rfl
  | ok _ => exact Iff.rfl

theorem picks_some_map : Picks (some <$> result) v rest ↔ Yields result v rest := by
  cases result with
  | error _ => exact Iff.rfl
  | ok _ => exact Iff.rfl

theorem map_some_ne : (result.map fun read => some (f read)) ≠ .ok none := by
  cases result <;> simp [Except.map]

theorem some_map_ne : some <$> result ≠ .ok none := map_some_ne

end Picks

end CssQuery
