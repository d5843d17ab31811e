import CssQuery.Query.Lower

namespace CssQuery

-- A compiled query, and the time it was last asked for.
structure CacheEntry where
  text : String
  query : Query
  lastUse : Nat

-- Keeps the queries that were asked for last, up to its capacity. No call raises the time or a
-- count by more than one, so words of 64 bits hold them for the first 2^64 - 1 calls.
structure QueryCache where
  capacity : Nat
  options : Options
  entries : List CacheEntry := []
  clock : Nat := 0
  hits : Nat := 0
  misses : Nat := 0
  evictions : Nat := 0

namespace QueryCache

def new (capacity : Nat) (options : Options) : QueryCache := { capacity, options }

def default : QueryCache := new 256 {}

variable (cache : QueryCache)

def size : Nat := cache.entries.length

def lookups : Nat := cache.hits + cache.misses

def find? (text : String) : Option CacheEntry := cache.entries.find? (·.text == text)

def contains (text : String) : Bool := cache.entries.any (·.text == text)

def oldest? : Option CacheEntry := cache.entries.foldl earlier none
where
  earlier : Option CacheEntry → CacheEntry → Option CacheEntry
    | none, entry => some entry
    | some sofar, entry => if entry.lastUse < sofar.lastUse then some entry else some sofar

def evictOldest : QueryCache :=
  match cache.oldest? with
  | none => cache
  | some oldest =>
      { cache with
        entries := cache.entries.filter (·.text != oldest.text)
        evictions := cache.evictions + 1 }

-- Evicts until there is room for one entry. There is never more than one too many.
def makeRoom : QueryCache :=
  if cache.capacity ≤ cache.size then cache.evictOldest else cache

def touch (text : String) : QueryCache :=
  { cache with
    entries := cache.entries.map fun entry =>
      if entry.text == text then { entry with lastUse := cache.clock } else entry
    hits := cache.hits + 1 }

def add (text : String) (query : Query) : QueryCache :=
  { cache with entries := ⟨text, query, cache.clock⟩ :: cache.entries }

-- The query for a text, from the cache if it is there. A text that does not compile
-- leaves the entries as they are.
def get (text : String) : Except SelectorError Query × QueryCache :=
  let cache := { cache with clock := cache.clock + 1 }
  match cache.find? text with
  | some entry => (.ok entry.query, cache.touch text)
  | none =>
      let cache := { cache with misses := cache.misses + 1 }
      match Query.compile text cache.options with
      | .error error => (.error error, cache)
      | .ok query =>
          if cache.capacity = 0 then (.ok query, cache)
          else (.ok query, cache.makeRoom.add text query)

def clear : QueryCache := { cache with entries := [] }

end QueryCache

end CssQuery
