import CssQuery.Proofs.Lists
import CssQuery.Query.Cache
import Mathlib.Algebra.GroupWithZero.Nat
import Mathlib.Data.List.Induction

namespace CssQuery

open Query

-- What is asked of a cache.
inductive CacheCall where
  | get (text : String)
  | clear
  deriving DecidableEq, Repr

def CacheCall.text? : CacheCall → Option String
  | .get text => some text
  | .clear => none

def Query.compiles (options : Options) (text : String) : Bool := (compile text options).isOk

-- The texts asked for since the last time that a cache was cleared, as far as they
-- compile. The one asked for last comes first, and each comes once.
def recentTexts (options : Options) (calls : List CacheCall) : List String :=
  (((calls.reverse.takeWhile (· != .clear)).filterMap CacheCall.text?).filter
    (compiles options)).eraseDups

variable {options : Options} {calls : List CacheCall} {text : String}

theorem recentTexts_clear : recentTexts options (calls ++ [.clear]) = [] := by
  simp [recentTexts]

theorem recentTexts_get : recentTexts options (calls ++ [.get text]) =
    if compiles options text then text :: (recentTexts options calls).erase text
    else recentTexts options calls := by
  have hlast : (calls ++ [CacheCall.get text]).reverse.takeWhile (· != .clear) =
      CacheCall.get text :: calls.reverse.takeWhile (· != .clear) := by
    rw [List.reverse_concat]
    exact List.takeWhile_cons_of_pos (by simp)
  have htext : (CacheCall.get text).text? = some text := rfl
  unfold recentTexts
  rw [hlast, List.filterMap_cons_some htext]
  split
  · next hc =>
      rw [List.filter_cons_of_pos hc, List.eraseDups_cons, (nodup_eraseDups _).erase_eq_filter,
        eraseDups_filter]
      rfl
  · next hc => rw [List.filter_cons_of_neg hc]

namespace QueryCache

def step (cache : QueryCache) : CacheCall → QueryCache
  | .get text => (cache.get text).2
  | .clear => cache.clear

def run (cache : QueryCache) (calls : List CacheCall) : QueryCache := calls.foldl step cache

-- Each call of a run with the cache that it finds.
def visits (cache : QueryCache) : List CacheCall → List (QueryCache × CacheCall)
  | [] => []
  | call :: more => (cache, call) :: (cache.step call).visits more

def isHit : QueryCache × CacheCall → Bool
  | (cache, .get text) => cache.contains text
  | (_, .clear) => false

def isMiss : QueryCache × CacheCall → Bool
  | (cache, .get text) => !cache.contains text
  | (_, .clear) => false

def isCompiledMiss : QueryCache × CacheCall → Bool
  | (cache, .get text) => !cache.contains text && compiles cache.options text
  | (_, .clear) => false

-- How many entries a call drops at once.
def dropped : QueryCache × CacheCall → Nat
  | (_, .get _) => 0
  | (cache, .clear) => cache.size

theorem sum_dropped_concat (visits : List (QueryCache × CacheCall))
    (visit : QueryCache × CacheCall) : ((visits ++ [visit]).map dropped).sum =
      (visits.map dropped).sum + dropped visit := by
  rw [List.map_append, List.sum_append, List.map_singleton, List.sum_singleton]

theorem run_concat (cache : QueryCache) (calls : List CacheCall) (call : CacheCall) :
    cache.run (calls ++ [call]) = (cache.run calls).step call :=
  List.foldl_concat step cache call calls

theorem visits_concat (cache : QueryCache) (calls : List CacheCall) (call : CacheCall) :
    cache.visits (calls ++ [call]) = cache.visits calls ++ [(cache.run calls, call)] := by
  induction calls generalizing cache with
  | nil => rfl
  | cons first more ih => exact congrArg ((cache, first) :: ·) (ih (cache.step first))

variable {cache : QueryCache} {query : Query} {entry : CacheEntry} {ranking : List CacheEntry}

theorem get_of_find (hf : cache.find? text = some entry) :
    cache.get text = (.ok entry.query, { cache with clock := cache.clock + 1 }.touch text) := by
  have hf' : { cache with clock := cache.clock + 1 }.find? text = some entry := hf
  simp only [get, hf']

theorem get_of_error {error : SelectorError} (hf : cache.find? text = none)
    (hc : compile text cache.options = .error error) :
    cache.get text = (.error error,
      { cache with clock := cache.clock + 1, misses := cache.misses + 1 }) := by
  have hf' : { cache with clock := cache.clock + 1 }.find? text = none := hf
  simp only [get, hf', hc]

theorem get_of_ok (hf : cache.find? text = none) (hc : compile text cache.options = .ok query) :
    cache.get text = (.ok query,
      let missed := { cache with clock := cache.clock + 1, misses := cache.misses + 1 }
      if cache.capacity = 0 then missed else missed.makeRoom.add text query) := by
  have hf' : { cache with clock := cache.clock + 1 }.find? text = none := hf
  simp only [get, hf', hc]
  split <;> rfl

-- The entries of a cache, the one used last first.
structure Ranked (cache : QueryCache) (ranking : List CacheEntry) : Prop where
  perm : ranking.Perm cache.entries
  sorted : ranking.Pairwise fun a b => b.lastUse < a.lastUse
  nodup : (ranking.map (·.text)).Nodup
  le_clock : ∀ entry ∈ ranking, entry.lastUse ≤ cache.clock
  compiled : ∀ entry ∈ ranking, compile entry.text cache.options = .ok entry.query
  length_le : ranking.length ≤ cache.capacity

-- The oldest of some entries was used no later than any.
theorem foldl_earlier (sofar : CacheEntry) (entries : List CacheEntry) :
    ∃ oldest, entries.foldl oldest?.earlier (some sofar) = some oldest ∧
      oldest ∈ sofar :: entries ∧ ∀ entry ∈ sofar :: entries, oldest.lastUse ≤ entry.lastUse := by
  induction entries generalizing sofar with
  | nil => exact ⟨sofar, rfl, by simp, by simp⟩
  | cons first more ih =>
      rw [List.foldl_cons, oldest?.earlier]
      split
      · next hlt =>
          obtain ⟨oldest, hf, hm, hle⟩ := ih first
          obtain ⟨hfirst, hmore⟩ := List.forall_mem_cons.1 hle
          refine ⟨oldest, hf, .tail _ hm, ?_⟩
          exact List.forall_mem_cons.2 ⟨by omega, hle⟩
      · next hge =>
          obtain ⟨oldest, hf, hm, hle⟩ := ih sofar
          obtain ⟨hsofar, hmore⟩ := List.forall_mem_cons.1 hle
          refine ⟨oldest, hf, ?_, ?_⟩
          · exact (List.mem_cons.1 hm).elim (fun h => h ▸ .head _) fun h => .tail _ (.tail _ h)
          · exact List.forall_mem_cons.2 ⟨hsofar, List.forall_mem_cons.2 ⟨by omega, hmore⟩⟩

namespace Ranked

variable (h : cache.Ranked ranking)

include h

theorem size_eq : cache.size = ranking.length := h.perm.length_eq.symm

theorem find?_eq_none : cache.find? text = none ↔ text ∉ ranking.map (·.text) := by
  rw [find?, List.find?_eq_none, List.mem_map]
  simp only [beq_iff_eq, not_exists, not_and, h.perm.mem_iff]

-- A text that does not compile is never there.
theorem find?_of_error {error : SelectorError} (hc : compile text cache.options = .error error) :
    cache.find? text = none := by
  rw [h.find?_eq_none, List.mem_map]
  rintro ⟨entry, hm, rfl⟩
  simp [h.compiled entry hm] at hc

-- An entry that is asked for becomes the one used last.
theorem touch (hf : cache.find? text = some entry) : ∃ before after,
    ranking = before ++ entry :: after ∧ entry.text = text ∧
      (cache.get text).2.Ranked
        ({ entry with lastUse := cache.clock + 1 } :: (before ++ after)) := by
  have htext : entry.text = text := by simpa using List.find?_some hf
  have hm := h.perm.mem_iff.2 (List.mem_of_find?_eq_some hf)
  obtain ⟨before, after, hs⟩ := List.append_of_mem hm
  have hperm : ranking.Perm (entry :: (before ++ after)) := hs ▸ List.perm_middle
  have hnodup := (hperm.map (·.text)).nodup_iff.1 h.nodup
  obtain ⟨hnot, hothers⟩ := List.nodup_cons.1 hnodup
  have hclock := fun x hx => h.le_clock x (hperm.mem_iff.2 (.tail _ hx))
  have hcompiled := fun x hx => h.compiled x (hperm.mem_iff.2 (.tail _ hx))
  have hsorted : (before ++ after).Pairwise fun a b => b.lastUse < a.lastUse := by
    have hsub : (before ++ after).Sublist ranking := by
      rw [hs]
      exact List.Sublist.append_left (List.sublist_cons_self _ _) _
    exact h.sorted.sublist hsub
  refine ⟨before, after, hs, htext, ?_⟩
  rw [get_of_find hf]
  refine ⟨?_, ?_, hnodup, ?_, ?_, ?_⟩
  · let used (x : CacheEntry) : CacheEntry :=
      if x.text == text then { x with lastUse := cache.clock + 1 } else x
    have hrest : (before ++ after).map used = before ++ after := by
      refine (List.map_congr_left fun x hx => ?_).trans (List.map_id _)
      have hne : x.text ≠ text := by
        intro he
        exact hnot (List.mem_map.2 ⟨x, hx, he.trans htext.symm⟩)
      simp [used, hne]
    have hentry : used entry = { entry with lastUse := cache.clock + 1 } := by simp [used, htext]
    have hused := (hperm.symm.trans h.perm).map used
    rwa [List.map_cons, hrest, hentry] at hused
  · exact List.pairwise_cons.2 ⟨fun x hx => Nat.lt_succ_of_le (hclock x hx), hsorted⟩
  · exact List.forall_mem_cons.2 ⟨Nat.le_refl _, fun x hx => Nat.le_succ_of_le (hclock x hx)⟩
  · exact List.forall_mem_cons.2 ⟨h.compiled entry hm, hcompiled⟩
  · have hlength := hperm.length_eq ▸ h.length_le
    exact hlength

omit h in
theorem oldest?_eq {front : List CacheEntry} {last : CacheEntry}
    (h : cache.Ranked (front ++ [last])) : cache.oldest? = some last := by
  obtain ⟨first, more, hentries⟩ : ∃ first more, cache.entries = first :: more := by
    apply List.exists_cons_of_ne_nil
    intro hnil
    have hperm := h.perm
    rw [hnil] at hperm
    simpa using hperm.eq_nil
  obtain ⟨oldest, hf, hm, hle⟩ := foldl_earlier first more
  rw [← hentries, ← h.perm.mem_iff] at hm
  have hlast : oldest.lastUse ≤ last.lastUse := by
    apply hle last
    rw [← hentries, ← h.perm.mem_iff]
    simp
  -- those before the last were used later
  have hfront : oldest ∉ front := by
    intro hfront
    have hlt := (List.pairwise_append.1 h.sorted).2.2 oldest hfront last (by simp)
    omega
  have heq : oldest = last := by simpa [hfront] using hm
  rw [oldest?, hentries, ← heq]
  exact hf

-- Room is made for one entry, by evicting the oldest one if need be.
theorem makeRoom {less : Nat} (hcapacity : cache.capacity = less + 1) : ∃ entries evictions,
    cache.makeRoom = { cache with entries, evictions } ∧ (ranking.take less).Perm entries ∧
      evictions + (ranking.take less).length = cache.evictions + ranking.length := by
  have hlength := h.length_le
  have hsize := h.size_eq
  by_cases hfull : cache.capacity ≤ cache.size
  · have hne : ranking ≠ [] := by
      rintro rfl
      simp only [List.length_nil] at hsize
      omega
    obtain ⟨front, last, rfl⟩ := List.eq_nil_or_concat ranking |>.resolve_left hne
    rw [List.concat_eq_append] at h hlength hsize ⊢
    simp only [List.length_append, List.length_singleton] at hlength hsize ⊢
    have hfront : (front ++ [last]).take less = front := List.take_left' (by omega)
    have hnodup := h.nodup
    rw [List.map_append, List.nodup_append] at hnodup
    have hothers : (front ++ [last]).filter (·.text != last.text) = front := by
      have hkept : front.filter (·.text != last.text) = front := by
        rw [List.filter_eq_self]
        intro x hx
        have hne := hnodup.2.2 x.text (List.mem_map_of_mem hx) last.text (by simp)
        simpa using hne
      rw [List.filter_append, hkept]
      simp
    refine ⟨cache.entries.filter (·.text != last.text), cache.evictions + 1, ?_, ?_, ?_⟩
    · rw [QueryCache.makeRoom, if_pos hfull, evictOldest, h.oldest?_eq]
    · rw [hfront]
      have hperm := h.perm.filter (·.text != last.text)
      rwa [hothers] at hperm
    · rw [hfront]
      omega
  · have htake : ranking.take less = ranking := List.take_of_length_le (by omega)
    refine ⟨cache.entries, cache.evictions, ?_, ?_, ?_⟩
    · rw [QueryCache.makeRoom, if_neg hfull]
    · rw [htake]
      exact h.perm
    · rw [htake]

-- What is known of the entries does not depend on the time or on what was counted.
theorem of_later {later : QueryCache} (hentries : later.entries = cache.entries)
    (hcapacity : later.capacity = cache.capacity) (hoptions : later.options = cache.options)
    (hclock : cache.clock ≤ later.clock) : later.Ranked ranking where
  perm := hentries ▸ h.perm
  sorted := h.sorted
  nodup := h.nodup
  le_clock entry hm := Nat.le_trans (h.le_clock entry hm) hclock
  compiled entry hm := hoptions ▸ h.compiled entry hm
  length_le := hcapacity ▸ h.length_le

-- A text that was not there takes the first place, and the last one may have to go.
theorem add {less : Nat} (hcapacity : cache.capacity = less + 1) (hnew : cache.find? text = none)
    (hc : compile text cache.options = .ok query) :
    ∃ entries evictions, cache.get text = (.ok query, { cache with
        entries := ⟨text, query, cache.clock + 1⟩ :: entries, evictions
        clock := cache.clock + 1, misses := cache.misses + 1 }) ∧
      (cache.get text).2.Ranked (⟨text, query, cache.clock + 1⟩ :: ranking.take less) ∧
      evictions + (ranking.take less).length = cache.evictions + ranking.length := by
  have hsub : (ranking.take less).Sublist ranking := List.take_sublist less ranking
  have hmissed : { cache with clock := cache.clock + 1, misses := cache.misses + 1 }.Ranked
      ranking := h.of_later rfl rfl rfl (Nat.le_succ _)
  obtain ⟨entries, evictions, hroom, hperm, hcount⟩ := hmissed.makeRoom hcapacity
  have hsome : cache.capacity ≠ 0 := by omega
  have hget := get_of_ok hnew hc
  simp only [if_neg hsome, hroom, QueryCache.add] at hget
  refine ⟨entries, evictions, hget, ?_, hcount⟩
  rw [hget]
  have hnot : text ∉ (ranking.take less).map (·.text) := by
    intro hm
    exact h.find?_eq_none.1 hnew ((hsub.map _).subset hm)
  refine ⟨hperm.cons _, ?_, List.nodup_cons.2 ⟨hnot, h.nodup.sublist (hsub.map _)⟩, ?_, ?_, ?_⟩
  · refine List.pairwise_cons.2 ⟨?_, h.sorted.sublist hsub⟩
    intro entry hm
    exact Nat.lt_succ_of_le (h.le_clock entry (hsub.subset hm))
  · refine List.forall_mem_cons.2 ⟨Nat.le_refl _, ?_⟩
    intro entry hm
    exact Nat.le_succ_of_le (h.le_clock entry (hsub.subset hm))
  · refine List.forall_mem_cons.2 ⟨hc, ?_⟩
    intro entry hm
    exact h.compiled entry (hsub.subset hm)
  · rw [hcapacity]
    exact Nat.succ_le_succ (List.length_take_le _ _)

end Ranked

theorem contains_eq (cache : QueryCache) (text : String) :
    cache.contains text = (cache.find? text).isSome :=
  List.isSome_find?.symm

-- What comes of asking a cache with some ranking for a text: the ranking afterwards, the
-- answer, and what was counted.
structure Served (cache : QueryCache) (ranking : List CacheEntry) (text : String)
    (next : List CacheEntry) : Prop where
  ranked : (cache.get text).2.Ranked next
  answer : (cache.get text).1 = compile text cache.options
  texts : next.map (·.text) =
    if compiles cache.options text then
      (text :: (ranking.map (·.text)).erase text).take cache.capacity
    else ranking.map (·.text)
  capacity : (cache.get text).2.capacity = cache.capacity
  options : (cache.get text).2.options = cache.options
  hits : (cache.get text).2.hits = cache.hits + if cache.contains text then 1 else 0
  misses : (cache.get text).2.misses = cache.misses + if cache.contains text then 0 else 1
  balance : 0 < cache.capacity → (cache.get text).2.evictions + next.length =
    cache.evictions + ranking.length +
      if !cache.contains text && compiles cache.options text then 1 else 0

namespace Ranked

variable (h : cache.Ranked ranking)

include h

theorem served_of_find (hf : cache.find? text = some entry) :
    ∃ next, cache.Served ranking text next := by
  obtain ⟨before, after, hs, htext, hranked⟩ := h.touch hf
  have hget := get_of_find hf
  have hcontains : cache.contains text = true := by rw [contains_eq, hf, Option.isSome_some]
  have hcompile : compile text cache.options = .ok entry.query :=
    htext ▸ h.compiled entry (by simp [hs])
  have hcompiles : compiles cache.options text = true := by
    rw [compiles, hcompile]
    rfl
  have hlength : ranking.length ≤ cache.capacity := h.length_le
  have hnodup := h.nodup
  rw [hs, List.map_append, List.map_cons, htext, List.nodup_append] at hnodup
  have hnot : text ∉ before.map (·.text) := fun hm => hnodup.2.2 text hm text (.head _) rfl
  have herase : (ranking.map (·.text)).erase text = (before ++ after).map (·.text) := by
    rw [hs, List.map_append, List.map_cons, htext, List.erase_append_right _ hnot,
      List.erase_cons_head, List.map_append]
  rw [hs, List.length_append, List.length_cons] at hlength
  refine ⟨_, {
    ranked := hranked
    answer := by rw [hget, hcompile]
    texts := ?_
    capacity := by rw [hget]; rfl
    options := by rw [hget]; rfl
    hits := by rw [hget, if_pos hcontains]; rfl
    misses := by rw [hget, if_pos hcontains]; rfl
    balance := ?_ }⟩
  · rw [if_pos hcompiles, herase, List.map_cons, htext, List.take_of_length_le]
    simp only [List.length_cons, List.length_map, List.length_append]
    omega
  · intro _
    rw [hget, hcontains, hs]
    simp [QueryCache.touch, Nat.add_assoc]

theorem served_of_error {error : SelectorError} (hf : cache.find? text = none)
    (hc : compile text cache.options = .error error) :
    ∃ next, cache.Served ranking text next := by
  have hget := get_of_error hf hc
  have hcontains : cache.contains text = false := by rw [contains_eq, hf, Option.isSome_none]
  have hcompiles : compiles cache.options text = false := by
    rw [compiles, hc]
    rfl
  have hlater : (cache.get text).2.Ranked ranking := by
    rw [hget]
    exact h.of_later rfl rfl rfl (Nat.le_succ _)
  exact ⟨ranking, {
    ranked := hlater
    answer := by rw [hget, hc]
    texts := by simp [hcompiles]
    capacity := by rw [hget]
    options := by rw [hget]
    hits := by simp [hget, hcontains]
    misses := by simp [hget, hcontains]
    balance := by simp [hget, hcompiles] }⟩

theorem served_of_ok (hf : cache.find? text = none) (hc : compile text cache.options = .ok query) :
    ∃ next, cache.Served ranking text next := by
  have hcontains : cache.contains text = false := by rw [contains_eq, hf, Option.isSome_none]
  have hcompiles : compiles cache.options text = true := by
    rw [compiles, hc]
    rfl
  cases hcapacity : cache.capacity with
  | zero =>
      have hget := get_of_ok hf hc
      simp only [if_pos hcapacity] at hget
      have hempty := h.length_le
      rw [hcapacity, Nat.le_zero, List.length_eq_zero_iff] at hempty
      have hlater : (cache.get text).2.Ranked ranking := by
        rw [hget]
        exact h.of_later rfl rfl rfl (Nat.le_succ _)
      exact ⟨ranking, {
        ranked := hlater
        answer := by rw [hget, hc]
        texts := by simp [hempty, hcapacity]
        capacity := by rw [hget]
        options := by rw [hget]
        hits := by simp [hget, hcontains]
        misses := by simp [hget, hcontains]
        balance := by simp [hcapacity] }⟩
  | succ less =>
      obtain ⟨entries, evictions, hget, hranked, hcount⟩ := h.add hcapacity hf hc
      have hnot := h.find?_eq_none.1 hf
      refine ⟨_, {
        ranked := hranked
        answer := by rw [hget, hc]
        texts := ?_
        capacity := by rw [hget]
        options := by rw [hget]
        hits := by simp [hget, hcontains]
        misses := by simp [hget, hcontains]
        balance := ?_ }⟩
      · rw [if_pos hcompiles, hcapacity, List.erase_of_not_mem hnot, List.take_succ_cons,
          List.map_cons, List.map_take]
      · intro _
        rw [hget, hcontains, hcompiles, List.length_cons]
        simp only [Bool.not_false, Bool.and_self, if_true]
        omega

-- However a cache is asked, its entries are ranked again afterwards.
theorem served (text : String) : ∃ next, cache.Served ranking text next := by
  cases hf : cache.find? text with
  | some entry => exact h.served_of_find hf
  | none =>
      cases hc : compile text cache.options with
      | error error => exact h.served_of_error hf hc
      | ok query => exact h.served_of_ok hf hc

end Ranked

-- What is true of a cache after some calls: it holds the texts asked for last, and has
-- counted what was asked.
structure Accounted (capacity : Nat) (options : Options) (calls : List CacheCall)
    (cache : QueryCache) (visits : List (QueryCache × CacheCall)) (ranking : List CacheEntry) :
    Prop where
  ranked : cache.Ranked ranking
  capacity_eq : cache.capacity = capacity
  options_eq : cache.options = options
  texts : ranking.map (·.text) = (recentTexts options calls).take capacity
  hits : cache.hits = visits.countP isHit
  misses : cache.misses = visits.countP isMiss
  balance : 0 < capacity →
    visits.countP isCompiledMiss = cache.evictions + (visits.map dropped).sum + cache.size

namespace Accounted

variable {capacity : Nat} {visits : List (QueryCache × CacheCall)}

theorem new (capacity : Nat) (options : Options) :
    Accounted capacity options [] (.new capacity options) [] [] where
  ranked := ⟨.nil, .nil, .nil, nofun, nofun, Nat.zero_le _⟩
  capacity_eq := rfl
  options_eq := rfl
  texts := by simp [recentTexts]
  hits := rfl
  misses := rfl
  balance _ := rfl

variable (h : Accounted capacity options calls cache visits ranking)

include h

theorem get (text : String) : ∃ next, Accounted capacity options (calls ++ [.get text])
    (cache.get text).2 (visits ++ [(cache, .get text)]) next := by
  obtain ⟨next, hs⟩ := h.ranked.served text
  have htexts : next.map (·.text) = (recentTexts options (calls ++ [.get text])).take capacity := by
    rw [hs.texts, h.options_eq, h.capacity_eq, h.texts, recentTexts_get]
    split
    · cases capacity with
      | zero => rfl
      | succ less => rw [List.take_succ_cons, List.take_succ_cons, take_erase_take]
    · rfl
  refine ⟨next, {
    ranked := hs.ranked
    capacity_eq := hs.capacity.trans h.capacity_eq
    options_eq := hs.options.trans h.options_eq
    texts := htexts
    hits := ?_
    misses := ?_
    balance := ?_ }⟩
  · rw [hs.hits, h.hits, List.countP_append, List.countP_singleton]
    rfl
  · rw [hs.misses, h.misses, List.countP_append, List.countP_singleton]
    cases hc : cache.contains text <;> simp [isMiss, hc]
  · intro hpos
    have hbefore := h.balance hpos
    have hserved := hs.balance (h.capacity_eq.symm ▸ hpos)
    have hsize := h.ranked.size_eq
    have hnext := hs.ranked.size_eq
    have hmiss : isCompiledMiss (cache, .get text) =
        (!cache.contains text && compiles cache.options text) := rfl
    have hdropped : dropped (cache, .get text) = 0 := rfl
    rw [List.countP_append, List.countP_singleton, hmiss, sum_dropped_concat, hdropped]
    omega

theorem clear : Accounted capacity options (calls ++ [.clear]) cache.clear
    (visits ++ [(cache, .clear)]) [] where
  ranked := ⟨.nil, .nil, .nil, nofun, nofun, Nat.zero_le _⟩
  capacity_eq := h.capacity_eq
  options_eq := h.options_eq
  texts := by simp [recentTexts_clear]
  hits := by
    rw [List.countP_append]
    exact h.hits
  misses := by
    rw [List.countP_append]
    exact h.misses
  balance hpos := by
    have hbefore := h.balance hpos
    have hmiss : isCompiledMiss (cache, .clear) = false := rfl
    have hdropped : dropped (cache, .clear) = cache.size := rfl
    have hsize : cache.clear.size = 0 := rfl
    have hevictions : cache.clear.evictions = cache.evictions := rfl
    rw [List.countP_append, List.countP_singleton, hmiss, sum_dropped_concat, hdropped, hsize,
      hevictions, if_neg Bool.false_ne_true]
    omega

end Accounted

theorem exists_accounted (capacity : Nat) (options : Options) (calls : List CacheCall) :
    ∃ ranking, Accounted capacity options calls ((new capacity options).run calls)
      ((new capacity options).visits calls) ranking := by
  induction calls using List.reverseRecOn with
  | nil => exact ⟨[], .new capacity options⟩
  | append_singleton calls call ih =>
      obtain ⟨ranking, h⟩ := ih
      rw [run_concat, visits_concat]
      cases call with
      | get text => exact h.get text
      | clear => exact ⟨[], h.clear⟩

-- However a cache is used, it answers as if it were not there, holds the texts that were
-- asked for last, as many as it may, and counts what it did.
theorem recent_of_calls (capacity : Nat) (options : Options) (calls : List CacheCall) :
    let cache := (new capacity options).run calls
    let visits := (new capacity options).visits calls
    (∀ text, (cache.get text).1 = compile text options) ∧
    (cache.entries.map (·.text)).Perm ((recentTexts options calls).take capacity) ∧
    (∀ text error, compile text options = .error error →
      (cache.get text).2.entries = cache.entries ∧
        (cache.get text).2.evictions = cache.evictions) ∧
    cache.hits = visits.countP isHit ∧ cache.misses = visits.countP isMiss ∧
    (0 < capacity →
      visits.countP isCompiledMiss = cache.evictions + (visits.map dropped).sum + cache.size) := by
  intro cache visits
  obtain ⟨ranking, h⟩ := exists_accounted capacity options calls
  refine ⟨?_, ?_, ?_, h.hits, h.misses, h.balance⟩
  · intro text
    obtain ⟨next, hs⟩ := h.ranked.served text
    rw [hs.answer, h.options_eq]
  · rw [← h.texts]
    exact (h.ranked.perm.map _).symm
  · intro text error hc
    have hc' : compile text cache.options = .error error := by rw [h.options_eq, hc]
    rw [get_of_error (h.ranked.find?_of_error hc') hc']
    exact ⟨rfl, rfl⟩

-- The second text evicts the first, and is asked for twice more after it was dropped. One
-- text does not compile.
def queried : List CacheCall := [.get "a", .get "b", .get "[", .clear, .get "b", .get "b"]

theorem recent_of_calls_queried :
    compile "[" {} = .error (.malformed 0 .unterminatedAttribute) ∧ 0 < 1 ∧
    let cache := (new 1 {}).run queried
    (cache.get "p").1 = compile "p" {} ∧ (cache.entries.map (·.text)).Perm ["b"] ∧
      (cache.get "[").2.evictions = cache.evictions ∧ cache.hits = 1 ∧ cache.misses = 4 ∧
      3 = cache.evictions + 1 + cache.size := by
  have herror : compile "[" {} = .error (.malformed 0 .unterminatedAttribute) := by
    with_unfolding_all rfl
  have hrecent : (recentTexts {} queried).take 1 = ["b"] := by with_unfolding_all rfl
  have hhit : ((new 1 {}).visits queried).countP isHit = 1 := by with_unfolding_all rfl
  have hmiss : ((new 1 {}).visits queried).countP isMiss = 4 := by with_unfolding_all rfl
  have hcompiled : ((new 1 {}).visits queried).countP isCompiledMiss = 3 := by
    with_unfolding_all rfl
  have hdropped : (((new 1 {}).visits queried).map dropped).sum = 1 := by with_unfolding_all rfl
  obtain ⟨hanswer, hentries, hfailed, hhits, hmisses, hbalance⟩ := recent_of_calls 1 {} queried
  have hsum := hbalance Nat.one_pos
  rw [hcompiled, hdropped] at hsum
  exact ⟨herror, Nat.one_pos, hanswer "p", hrecent ▸ hentries, (hfailed "[" _ herror).2,
    hhits.trans hhit, hmisses.trans hmiss, hsum⟩

theorem exists_makeRoom (cache : QueryCache) : ∃ entries evictions,
    cache.makeRoom = { cache with entries, evictions } ∧ evictions ≤ cache.evictions + 1 := by
  rw [makeRoom, evictOldest]
  split
  · cases cache.oldest? with
    | none => exact ⟨_, _, rfl, Nat.le_succ _⟩
    | some oldest => exact ⟨_, _, rfl, Nat.le_refl _⟩
  · exact ⟨_, _, rfl, Nat.le_succ _⟩

theorem step_counts_le (cache : QueryCache) (call : CacheCall) :
    (cache.step call).clock ≤ cache.clock + 1 ∧ (cache.step call).hits ≤ cache.hits + 1 ∧
      (cache.step call).misses ≤ cache.misses + 1 ∧
      (cache.step call).evictions ≤ cache.evictions + 1 := by
  cases call with
  | clear => simp [step, QueryCache.clear]
  | get text =>
      rw [step]
      cases hf : cache.find? text with
      | some entry =>
          rw [get_of_find hf]
          simp [QueryCache.touch]
      | none =>
          cases hc : compile text cache.options with
          | error error =>
              rw [get_of_error hf hc]
              simp
          | ok query =>
              rw [get_of_ok hf hc]
              dsimp only
              split
              · simp
              · obtain ⟨entries, evictions, hroom, hle⟩ := exists_makeRoom
                  { cache with clock := cache.clock + 1, misses := cache.misses + 1 }
                rw [hroom]
                simpa [add] using hle

-- No count passes the number of calls, so words of 64 bits hold them for 2^64 - 1 calls.
theorem run_counts_le (capacity : Nat) (options : Options) (calls : List CacheCall) :
    let cache := (new capacity options).run calls
    cache.clock ≤ calls.length ∧ cache.hits ≤ calls.length ∧ cache.misses ≤ calls.length ∧
      cache.evictions ≤ calls.length := by
  induction calls using List.reverseRecOn with
  | nil => exact ⟨Nat.le_refl 0, Nat.le_refl 0, Nat.le_refl 0, Nat.le_refl 0⟩
  | append_singleton calls call ih =>
      obtain ⟨hclock, hhits, hmisses, hevictions⟩ :=
        step_counts_le ((new capacity options).run calls) call
      rw [run_concat, List.length_append, List.length_singleton]
      exact ⟨Nat.le_trans hclock (Nat.succ_le_succ ih.1),
        Nat.le_trans hhits (Nat.succ_le_succ ih.2.1),
        Nat.le_trans hmisses (Nat.succ_le_succ ih.2.2.1),
        Nat.le_trans hevictions (Nat.succ_le_succ ih.2.2.2)⟩

end QueryCache

end CssQuery
