import Mathlib.Data.List.Dedup
import Mathlib.Data.List.Forall2

namespace CssQuery

section Related

variable {α β γ : Type} {r : α → β → Prop} {xs : List α} {ys : List β}

theorem map_eq_of_forall₂ {f : α → γ} {g : β → γ} (hl : List.Forall₂ r xs ys)
    (h : ∀ x ∈ xs, ∀ y, r x y → f x = g y) : xs.map f = ys.map g := by
  induction hl with
  | nil => rfl
  | @cons x y xs ys hxy _ ih =>
      have hhead : f x = g y := h x (.head _) y hxy
      have htail : xs.map f = ys.map g := ih fun z hz => h z (.tail _ hz)
      rw [List.map_cons, List.map_cons, hhead, htail]

theorem any_eq_of_forall₂ {f : α → Bool} {g : β → Bool} (hl : List.Forall₂ r xs ys)
    (h : ∀ x ∈ xs, ∀ y, r x y → f x = g y) : xs.any f = ys.any g := by
  have hmap := congrArg (List.any · id) (map_eq_of_forall₂ hl h)
  simpa only [List.any_map, Function.id_comp] using hmap

theorem countP_eq_of_forall₂ {f : α → Bool} {g : β → Bool} (hl : List.Forall₂ r xs ys)
    (h : ∀ x ∈ xs, ∀ y, r x y → f x = g y) : xs.countP f = ys.countP g := by
  have hmap := congrArg (List.countP id) (map_eq_of_forall₂ hl h)
  simpa only [List.countP_map, Function.id_comp] using hmap

theorem rel_head?_of_forall₂ (hl : List.Forall₂ r xs ys) : Option.Rel r xs.head? ys.head? := by
  cases hl with
  | nil => exact .none
  | cons hxy _ => exact .some hxy

theorem forall₂_toList {x : Option α} {y : Option β} (hr : Option.Rel r x y) :
    List.Forall₂ r x.toList y.toList := by
  cases hr with
  | none => exact .nil
  | some hxy => exact .cons hxy .nil

theorem exists_of_rel_some {x : α} {y : Option β} (hr : Option.Rel r (some x) y) :
    ∃ z, y = some z ∧ r x z := by
  cases hr with
  | some hxy => exact ⟨_, rfl, hxy⟩

theorem isNone_eq_of_rel {x : Option α} {y : Option β} (hr : Option.Rel r x y) :
    x.isNone = y.isNone := by
  cases hr <;> rfl

theorem eq_none_of_rel_none {y : Option β} (hr : Option.Rel r none y) : y = none := by
  cases hr
  rfl

theorem any_eq_of_rel {x : Option α} {y : Option β} {p : α → Bool} {q : β → Bool}
    (hr : Option.Rel r x y) (h : ∀ x y, r x y → p x = q y) : x.any p = y.any q := by
  cases hr with
  | none => rfl
  | some hxy => exact h _ _ hxy

theorem bind_eq_of_rel {x : Option α} {y : Option β} {f : α → Option γ} {g : β → Option γ}
    (hr : Option.Rel r x y) (h : ∀ a b, x = some a → r a b → f a = g b) :
    x.bind f = y.bind g := by
  cases hr with
  | none => rfl
  | some hxy => exact h _ _ rfl hxy

theorem rel_option_filter {x : Option α} {y : Option β} {p : α → Bool} {q : β → Bool}
    (hr : Option.Rel r x y) (h : ∀ x y, r x y → p x = q y) :
    Option.Rel r (x.filter p) (y.filter q) := by
  cases hr with
  | none => exact .none
  | @some x y hxy =>
      rw [Option.filter_some, Option.filter_some, h x y hxy]
      split
      · exact .some hxy
      · exact .none

theorem forall₂_of_pairs {pairs : List (α × β)} (h : ∀ pair ∈ pairs, r pair.1 pair.2) :
    List.Forall₂ r (pairs.map Prod.fst) (pairs.map Prod.snd) := by
  induction pairs with
  | nil => exact .nil
  | cons pair more ih =>
      obtain ⟨hpair, hmore⟩ := List.forall_mem_cons.1 h
      exact .cons hpair (ih hmore)

-- What stands around related members is related as well.
theorem exists_split_of_mem_zip (hl : List.Forall₂ r xs ys) {x : α} {y : β}
    (hm : (x, y) ∈ xs.zip ys) : ∃ before after front rest, xs = before ++ x :: after ∧
      ys = front ++ y :: rest ∧ List.Forall₂ r before front ∧ List.Forall₂ r after rest := by
  obtain ⟨hlength, hpairs⟩ := List.forall₂_iff_zip.1 hl
  obtain ⟨pre, post, hzip⟩ := List.append_of_mem hm
  have hxs := List.map_fst_zip (Nat.le_of_eq hlength)
  have hys := List.map_snd_zip (Nat.le_of_eq hlength.symm)
  rw [hzip, List.map_append, List.map_cons] at hxs hys
  have hin : ∀ pair ∈ pre ++ (x, y) :: post, r pair.1 pair.2 := fun pair hp => hpairs (hzip ▸ hp)
  obtain ⟨hpre, hrest⟩ := List.forall_mem_append.1 hin
  have hpost := (List.forall_mem_cons.1 hrest).2
  exact ⟨_, _, _, _, hxs.symm, hys.symm, forall₂_of_pairs hpre, forall₂_of_pairs hpost⟩

theorem eq_of_mem_zip {f : α → γ} {g : β → γ} (h : xs.map f = ys.map g) {x : α} {y : β}
    (hm : (x, y) ∈ xs.zip ys) : f x = g y := by
  induction xs generalizing ys with
  | nil => simp at hm
  | cons z xs ih =>
      cases ys with
      | nil => simp at hm
      | cons w ys =>
          obtain ⟨hhead, htail⟩ := List.cons.inj h
          rcases List.mem_cons.1 hm with he | hm
          · obtain ⟨rfl, rfl⟩ := Prod.mk.inj he
            exact hhead
          · exact ih htail hm

theorem forall₂_filter {p : α → Bool} {q : β → Bool} (hl : List.Forall₂ r xs ys)
    (h : ∀ x y, r x y → p x = q y) : List.Forall₂ r (xs.filter p) (ys.filter q) :=
  List.rel_filter (fun x y hxy => Bool.eq_iff_iff.1 (h x y hxy)) hl

end Related

section Repeats

variable {α : Type} [DecidableEq α]

theorem nodup_eraseDups (xs : List α) : xs.eraseDups.Nodup := by
  induction hl : xs.length using Nat.strongRecOn generalizing xs with
  | ind n ih =>
      cases xs with
      | nil => exact .nil
      | cons x rest =>
          rw [List.eraseDups_cons, List.nodup_cons]
          refine ⟨by simp [List.mem_eraseDups], ih _ ?_ _ rfl⟩
          have hf := List.length_filter_le (fun y => !y == x) rest
          simp only [List.length_cons] at hl
          omega

-- Repeats go whether they are looked for before or after some are left out.
theorem eraseDups_filter (p : α → Bool) (xs : List α) :
    (xs.filter p).eraseDups = xs.eraseDups.filter p := by
  induction hl : xs.length using Nat.strongRecOn generalizing xs with
  | ind n ih =>
      cases xs with
      | nil => rfl
      | cons x rest =>
          have hf := List.length_filter_le (fun y => !y == x) rest
          simp only [List.length_cons] at hl
          have hrest := ih _ (by omega) (rest.filter fun y => !y == x) rfl
          rw [List.eraseDups_cons]
          cases hx : p x with
          | true =>
              rw [List.filter_cons_of_pos hx, List.filter_cons_of_pos hx, List.eraseDups_cons,
                List.filter_comm, hrest]
          | false =>
              have hout : (rest.filter fun y => !y == x).filter p = rest.filter p := by
                rw [List.filter_filter]
                refine List.filter_congr fun y _ => ?_
                by_cases hy : y = x <;> simp [hy, hx]
              rw [List.filter_cons_of_neg (by simp [hx]), List.filter_cons_of_neg (by simp [hx]),
                ← hrest, hout]

-- Where the rest is cut off, what was cut off before does not matter.
theorem take_erase_take (x : α) (count : Nat) (xs : List α) :
    ((xs.take (count + 1)).erase x).take count = (xs.erase x).take count := by
  induction xs generalizing count with
  | nil => rfl
  | cons y rest ih =>
      rw [List.take_succ_cons]
      by_cases hy : y = x
      · rw [hy, List.erase_cons_head, List.erase_cons_head, List.take_take, Nat.min_self]
      · rw [List.erase_cons_tail (by simpa using hy), List.erase_cons_tail (by simpa using hy)]
        cases count with
        | zero => rfl
        | succ count => rw [List.take_succ_cons, List.take_succ_cons, ih]

end Repeats

section Pairs

variable {α : Type} {a b : α} {xs : List α}

theorem pair_sublist_iff :
    [a, b].Sublist xs ↔ ∃ before after, xs = before ++ b :: after ∧ a ∈ before := by
  rw [List.cons_sublist_iff]
  constructor
  · rintro ⟨front, rest, rfl, ha, hb⟩
    obtain ⟨middle, after, rfl⟩ := List.append_of_mem (List.singleton_sublist.1 hb)
    exact ⟨front ++ middle, after, by simp, List.mem_append_left _ ha⟩
  · rintro ⟨before, after, rfl, ha⟩
    exact ⟨before, b :: after, rfl, ha, by simp⟩

-- Of two members that differ, one comes before the other.
theorem pair_sublist_total (ha : a ∈ xs) (hb : b ∈ xs) (hne : a ≠ b) :
    [a, b].Sublist xs ∨ [b, a].Sublist xs := by
  obtain ⟨before, after, rfl⟩ := List.append_of_mem hb
  rcases List.mem_append.1 ha with ha | ha
  · exact .inl (pair_sublist_iff.2 ⟨before, after, rfl, ha⟩)
  · have hafter : a ∈ after := (List.mem_cons.1 ha).resolve_left hne
    have hba : [b, a].Sublist (b :: after) := (List.singleton_sublist.2 hafter).cons_cons b
    exact .inr (hba.trans (List.sublist_append_right before _))

-- Where a relation holds along a list and not both ways, it tells which member comes first.
theorem pair_sublist_of_pairwise {r : α → α → Prop} (h : xs.Pairwise r) (ha : a ∈ xs) (hb : b ∈ xs)
    (hne : a ≠ b) (hn : ¬ r b a) : [a, b].Sublist xs := by
  rcases pair_sublist_total ha hb hne with hab | hba
  · exact hab
  · exact absurd (List.pairwise_iff_forall_sublist.1 h hba) hn

theorem idxOf_lt_of_pair [DecidableEq α] (hd : xs.Nodup) (h : [a, b].Sublist xs) :
    xs.idxOf a < xs.idxOf b := by
  obtain ⟨before, after, rfl, ha⟩ := pair_sublist_iff.1 h
  have hb : b ∉ before := fun hb => (List.nodup_append.1 hd).2.2 b hb b (.head _) rfl
  rw [List.idxOf_append_of_mem ha, List.idxOf_append_of_notMem hb, List.idxOf_cons_self]
  exact Nat.lt_of_lt_of_le (List.idxOf_lt_length_of_mem ha) (Nat.le_add_right ..)

end Pairs

section Pieces

variable {α β : Type} {p : α → Bool} {piece xs ys : List α}

theorem length_eq_of_map {f : α → β} (h : xs.map f = ys.map f) :
    xs.length = ys.length := by
  rw [← List.length_map f, h, List.length_map]

theorem append_cons_inj {x : α} {as bs cs ds : List α} (has : x ∉ as) (hcs : x ∉ cs)
    (h : as ++ x :: bs = cs ++ x :: ds) : as = cs ∧ bs = ds := by
  obtain ⟨es, rfl, hes⟩ | ⟨es, rfl, hes⟩ := List.append_eq_append_iff.1 h
  · cases es with
    | nil => exact ⟨(List.append_nil _).symm, (List.cons.inj hes).2⟩
    | cons y es =>
        obtain ⟨rfl, -⟩ := List.cons.inj hes
        exact absurd (List.mem_append_right _ (.head _)) hcs
  · cases es with
    | nil => exact ⟨List.append_nil _, (List.cons.inj hes).2.symm⟩
    | cons y es =>
        obtain ⟨rfl, -⟩ := List.cons.inj hes
        exact absurd (List.mem_append_right _ (.head _)) has

theorem append_singleton_prefix_iff {x : α} :
    xs ++ [x] <+: ys ↔ ys[xs.length]? = some x ∧ xs <+: ys := by
  constructor
  · rintro ⟨more, rfl⟩
    exact ⟨by simp, [x] ++ more, (List.append_assoc ..).symm⟩
  · rintro ⟨hx, more, rfl⟩
    cases more with
    | nil => simp at hx
    | cons y more =>
        obtain rfl : y = x := by simpa using hx
        exact ⟨more, List.append_assoc ..⟩

theorem mem_splitOnP_of_split {before after : List α} (hpiece : ∀ x ∈ piece, p x = false)
    (hbefore : ∀ x ∈ before.getLast?, p x = true) (hafter : ∀ x ∈ after.head?, p x = true) :
    piece ∈ (before ++ (piece ++ after)).splitOnP p := by
  have hrest : piece ∈ (piece ++ after).splitOnP p := by
    cases after with
    | nil => rw [List.append_nil, List.splitOnP_eq_singleton hpiece]; exact .head _
    | cons x after =>
        rw [List.splitOnP_append_cons_of_forall_mem hpiece x (hafter x rfl)]
        exact .head _
  obtain rfl | ⟨before, x, rfl⟩ := List.eq_nil_or_concat before
  · exact hrest
  · rw [List.concat_append, List.splitOnP_append_cons _ _ (hbefore x (by simp))]
    exact List.mem_append_right _ hrest

-- The pieces between separators are those without one that cannot be made longer.
theorem mem_splitOnP_iff : piece ∈ xs.splitOnP p ↔ (∀ x ∈ piece, p x = false) ∧
    ∃ before after, xs = before ++ (piece ++ after) ∧
      (∀ x ∈ before.getLast?, p x = true) ∧ ∀ x ∈ after.head?, p x = true := by
  constructor
  · intro h
    induction hl : xs.length using Nat.strongRecOn generalizing xs with
    | ind n ih =>
        by_cases hfree : ∀ x ∈ xs, p x = false
        · rw [List.splitOnP_eq_singleton hfree, List.mem_singleton] at h
          subst h
          exact ⟨hfree, [], [], (List.append_nil _).symm, nofun, nofun⟩
        · have hsome : ∃ x ∈ xs, p x = true := by simpa using hfree
          obtain ⟨sep, hsep, first, rest, hfirst, rfl⟩ :
              ∃ sep, p sep = true ∧ ∃ first rest, (∀ x ∈ first, p x = false) ∧
                xs = first ++ sep :: rest := by
            obtain ⟨sep, hfind⟩ := Option.isSome_iff_exists.1 (List.find?_isSome.2 hsome)
            obtain ⟨hsep, first, rest, rfl, hfirst⟩ := List.find?_eq_some_iff_append.1 hfind
            exact ⟨sep, hsep, first, rest, by simpa using hfirst, rfl⟩
          rw [List.splitOnP_append_cons_of_forall_mem hfirst sep hsep, List.mem_cons] at h
          obtain rfl | h := h
          · exact ⟨hfirst, [], sep :: rest, rfl, nofun, by simpa using hsep⟩
          · have hshorter : rest.length < n := by simp at hl; omega
            obtain ⟨hpiece, before, after, rfl, hbefore, hafter⟩ := ih _ hshorter h rfl
            refine ⟨hpiece, first ++ sep :: before, after, by simp, ?_, hafter⟩
            rw [List.getLast?_append_cons]
            cases before with
            | nil => simpa using hsep
            | cons x before => rwa [List.getLast?_cons_cons]
  · rintro ⟨hpiece, before, after, rfl, hbefore, hafter⟩
    exact mem_splitOnP_of_split hpiece hbefore hafter

end Pieces

end CssQuery
