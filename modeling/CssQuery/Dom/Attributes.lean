import CssQuery.Text.Ascii

namespace CssQuery

-- The attributes of an element, one for each name. They come in an order that is up to the
-- map that holds them, and maps of the same pairs need not agree on it.
structure Attributes where
  pairs : List (String × String)
  distinct : pairs.Pairwise (·.1 ≠ ·.1)
  deriving DecidableEq

-- Attributes as they are written down, sorted by name.
structure SortedAttributes where
  pairs : List (String × String)
  sorted : pairs.Pairwise (·.1 < ·.1)
  deriving DecidableEq

namespace Attributes

def empty : Attributes := ⟨[], .nil⟩

-- Replaces the pair of a name, or adds one behind all others.
def putPair (name value : String) : List (String × String) → List (String × String)
  | [] => [(name, value)]
  | pair :: more =>
      if pair.1 = name then (name, value) :: more else pair :: putPair name value more

theorem mem_putPair {name value : String} {pairs : List (String × String)}
    {pair : String × String} (h : pair ∈ putPair name value pairs) :
    pair = (name, value) ∨ pair ∈ pairs := by
  induction pairs with
  | nil => simpa [putPair] using h
  | cons head more ih =>
      simp only [putPair] at h
      split at h
      · exact (List.mem_cons.1 h).imp_right (List.mem_cons_of_mem _)
      · rcases List.mem_cons.1 h with h | h
        · exact .inr (h ▸ List.mem_cons_self)
        · exact (ih h).imp_right (List.mem_cons_of_mem _)

theorem distinct_putPair {name value : String} {pairs : List (String × String)}
    (h : pairs.Pairwise (·.1 ≠ ·.1)) : (putPair name value pairs).Pairwise (·.1 ≠ ·.1) := by
  induction pairs with
  | nil => simp [putPair]
  | cons head more ih =>
      obtain ⟨hhead, hmore⟩ := List.pairwise_cons.1 h
      simp only [putPair]
      split
      · next heq => exact List.pairwise_cons.2 ⟨fun pair hp => heq ▸ hhead pair hp, hmore⟩
      · next hne =>
          refine List.pairwise_cons.2 ⟨fun pair hp => ?_, ih hmore⟩
          rcases mem_putPair hp with rfl | hp
          · exact hne
          · exact hhead pair hp

def insert (attrs : Attributes) (name value : String) : Attributes :=
  ⟨putPair name value attrs.pairs, distinct_putPair attrs.distinct⟩

-- The last of several pairs of one name counts.
def ofList (pairs : List (String × String)) : Attributes :=
  pairs.foldl (fun attrs pair => attrs.insert pair.1 pair.2) empty

def get? (attrs : Attributes) (name : String) : Option String := attrs.pairs.lookup name

-- The value under a name in lower case. An attribute of exactly that name comes
-- before those that differ in case, of which the first that comes by is taken.
def getFolded? (attrs : Attributes) (name : String) : Option String :=
  match attrs.get? name with
  | some value => some value
  | none => (attrs.pairs.find? (Text.sameFolded name ·.1)).map (·.2)

end Attributes

namespace SortedAttributes

def empty : SortedAttributes := ⟨[], .nil⟩

-- Puts a pair in its place, where it replaces one of the same name.
def insertPair (name value : String) : List (String × String) → List (String × String)
  | [] => [(name, value)]
  | pair :: more =>
      if name < pair.1 then (name, value) :: pair :: more
      else if name = pair.1 then (name, value) :: more
      else pair :: insertPair name value more

theorem mem_insertPair {name value : String} {pairs : List (String × String)}
    {pair : String × String} (h : pair ∈ insertPair name value pairs) :
    pair = (name, value) ∨ pair ∈ pairs := by
  induction pairs with
  | nil => simpa [insertPair] using h
  | cons head more ih =>
      simp only [insertPair] at h
      split at h
      · simpa using h
      · split at h
        · rcases List.mem_cons.1 h with h | h
          · exact .inl h
          · exact .inr (List.mem_cons_of_mem _ h)
        · rcases List.mem_cons.1 h with h | h
          · exact .inr (h ▸ List.mem_cons_self)
          · exact (ih h).imp_right (List.mem_cons_of_mem _)

theorem sorted_insertPair {name value : String} {pairs : List (String × String)}
    (h : pairs.Pairwise (·.1 < ·.1)) : (insertPair name value pairs).Pairwise (·.1 < ·.1) := by
  induction pairs with
  | nil => simp [insertPair]
  | cons head more ih =>
      have hhead := (List.pairwise_cons.1 h).1
      have hmore := (List.pairwise_cons.1 h).2
      simp only [insertPair]
      split
      · next hlt =>
          refine List.pairwise_cons.2 ⟨fun pair hp => ?_, h⟩
          rcases List.mem_cons.1 hp with rfl | hp
          · exact hlt
          · exact String.lt_trans hlt (hhead pair hp)
      · next hge =>
          split
          · next heq => exact List.pairwise_cons.2 ⟨fun pair hp => heq ▸ hhead pair hp, hmore⟩
          · next hne =>
              refine List.pairwise_cons.2 ⟨fun pair hp => ?_, ih hmore⟩
              rcases mem_insertPair hp with rfl | hp
              · exact Std.lt_of_le_of_ne (String.not_lt.1 hge) (Ne.symm hne)
              · exact hhead pair hp

def insert (attrs : SortedAttributes) (name value : String) : SortedAttributes :=
  ⟨insertPair name value attrs.pairs, sorted_insertPair attrs.sorted⟩

-- The last of several pairs of one name counts.
def ofList (pairs : List (String × String)) : SortedAttributes :=
  pairs.foldl (fun attrs pair => attrs.insert pair.1 pair.2) empty

theorem distinct (attrs : SortedAttributes) : attrs.pairs.Pairwise (·.1 ≠ ·.1) := by
  refine attrs.sorted.imp ?_
  intro a b hlt heq
  exact String.lt_irrefl b.1 (heq ▸ hlt)

def toAttributes (attrs : SortedAttributes) : Attributes := ⟨attrs.pairs, attrs.distinct⟩

end SortedAttributes

def Attributes.sort (attrs : Attributes) : SortedAttributes := .ofList attrs.pairs

end CssQuery
