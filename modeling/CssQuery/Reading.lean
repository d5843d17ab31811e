namespace CssQuery

-- What was read from the head of a list of symbols, and the symbols that follow.
-- There are fewer of them than the bound, so a reader that loops comes to an end.
structure Reading (σ α : Type) (bound : Nat) where
  value : α
  rest : List σ
  within : rest.length < bound

namespace Reading

variable {σ α β : Type} {a b : Nat}

def ofHead (value : α) (s : σ) (rest : List σ) : Reading σ α (s :: rest).length :=
  ⟨value, rest, Nat.lt_succ_self _⟩

def ofNone (value : α) (symbols : List σ) : Reading σ α (symbols.length + 1) :=
  ⟨value, symbols, Nat.lt_succ_self _⟩

def takeWhile (passes : σ → Bool) (symbols : List σ) : Reading σ (List σ) (symbols.length + 1) :=
  ⟨symbols.takeWhile passes, symbols.dropWhile passes,
    Nat.lt_succ_of_le (List.dropWhile_suffix _).length_le⟩

def map (f : α → β) (reading : Reading σ α a) : Reading σ β a :=
  ⟨f reading.value, reading.rest, reading.within⟩

def widen (h : a ≤ b) (reading : Reading σ α a) : Reading σ α b :=
  ⟨reading.value, reading.rest, Nat.lt_of_lt_of_le reading.within h⟩

-- A reading that takes a symbol is one that may take none.
def weaken (reading : Reading σ α a) : Reading σ α (a + 1) := reading.widen (Nat.le_succ a)

-- A reading that begins where another one ended.
def followedBy (first : Reading σ α a) (next : Reading σ β first.rest.length) : Reading σ β a :=
  next.widen (Nat.le_of_lt first.within)

-- The same where the second one may take no symbol.
def continuedBy (first : Reading σ α a) (next : Reading σ β (first.rest.length + 1)) :
    Reading σ β a :=
  next.widen first.within

-- The same where the first one may have taken no symbol.
def closedBy (first : Reading σ α (a + 1)) (next : Reading σ β first.rest.length) :
    Reading σ β a :=
  next.widen (Nat.le_of_lt_succ first.within)

@[simp] theorem ofHead_value (v : α) (s : σ) (rest : List σ) : (ofHead v s rest).value = v := rfl

@[simp] theorem ofHead_rest (v : α) (s : σ) (rest : List σ) : (ofHead v s rest).rest = rest := rfl

@[simp] theorem ofNone_value (v : α) (ss : List σ) : (ofNone v ss).value = v := rfl

@[simp] theorem ofNone_rest (v : α) (ss : List σ) : (ofNone v ss).rest = ss := rfl

@[simp] theorem takeWhile_value (p : σ → Bool) (ss : List σ) :
    (takeWhile p ss).value = ss.takeWhile p := rfl

@[simp] theorem takeWhile_rest (p : σ → Bool) (ss : List σ) :
    (takeWhile p ss).rest = ss.dropWhile p := rfl

@[simp] theorem map_value (f : α → β) (r : Reading σ α a) : (r.map f).value = f r.value := rfl

@[simp] theorem map_rest (f : α → β) (r : Reading σ α a) : (r.map f).rest = r.rest := rfl

@[simp] theorem widen_value (h : a ≤ b) (r : Reading σ α a) : (r.widen h).value = r.value := rfl

@[simp] theorem widen_rest (h : a ≤ b) (r : Reading σ α a) : (r.widen h).rest = r.rest := rfl

@[simp] theorem weaken_value (r : Reading σ α a) : r.weaken.value = r.value := rfl

@[simp] theorem weaken_rest (r : Reading σ α a) : r.weaken.rest = r.rest := rfl

@[simp] theorem followedBy_value (r : Reading σ α a) (n : Reading σ β r.rest.length) :
    (r.followedBy n).value = n.value := rfl

@[simp] theorem followedBy_rest (r : Reading σ α a) (n : Reading σ β r.rest.length) :
    (r.followedBy n).rest = n.rest := rfl

@[simp] theorem continuedBy_value (r : Reading σ α a) (n : Reading σ β (r.rest.length + 1)) :
    (r.continuedBy n).value = n.value := rfl

@[simp] theorem continuedBy_rest (r : Reading σ α a) (n : Reading σ β (r.rest.length + 1)) :
    (r.continuedBy n).rest = n.rest := rfl

@[simp] theorem closedBy_value (r : Reading σ α (a + 1)) (n : Reading σ β r.rest.length) :
    (r.closedBy n).value = n.value := rfl

@[simp] theorem closedBy_rest (r : Reading σ α (a + 1)) (n : Reading σ β r.rest.length) :
    (r.closedBy n).rest = n.rest := rfl

end Reading

end CssQuery
