import CssQuery.Dom.Load
import CssQuery.Proofs.Text.Utf8
import Mathlib.Data.List.Nodup

namespace CssQuery

namespace SortedAttributes

variable {a b : SortedAttributes} {name value : String} {pairs more : List (String × String)}

-- A name behind all others is put at the end.
theorem insertPair_of_forall_lt (h : ∀ pair ∈ pairs, pair.1 < name) :
    insertPair name value pairs = pairs ++ [(name, value)] := by
  induction pairs with
  | nil => rfl
  | cons head more ih =>
      obtain ⟨hhead, hmore⟩ := List.forall_mem_cons.1 h
      have hlt : ¬ name < head.1 := String.lt_asymm hhead
      have hne : name ≠ head.1 := fun he => String.lt_irrefl _ (he ▸ hhead)
      rw [insertPair, if_neg hlt, if_neg hne, ih hmore]
      rfl

theorem pairs_foldl_insert {attrs : SortedAttributes}
    (h : (attrs.pairs ++ more).Pairwise (·.1 < ·.1)) :
    (more.foldl (fun attrs pair => attrs.insert pair.1 pair.2) attrs).pairs =
      attrs.pairs ++ more := by
  induction more generalizing attrs with
  | nil => simp
  | cons pair more ih =>
      have hlast : ∀ other ∈ attrs.pairs, other.1 < pair.1 := fun other hm =>
        (List.pairwise_append.1 h).2.2 other hm pair List.mem_cons_self
      have hinsert : (attrs.insert pair.1 pair.2).pairs = attrs.pairs ++ [pair] :=
        insertPair_of_forall_lt hlast
      have hsplit : (attrs.insert pair.1 pair.2).pairs ++ more = attrs.pairs ++ pair :: more := by
        rw [hinsert, List.append_assoc]
        rfl
      rw [List.foldl_cons, ih (hsplit ▸ h), hsplit]

-- The order of names leaves no choice in how pairs are sorted.
theorem eq_of_perm (h : a.pairs.Perm b.pairs) : a = b := by
  have hpairs : a.pairs = b.pairs := by
    refine h.eq_of_pairwise (fun x y _ _ hxy hyx => ?_) a.sorted b.sorted
    exact absurd hyx (String.lt_asymm hxy)
  cases a
  cases b
  cases hpairs
  rfl

-- Pairs in the order of their names are the attributes they make.
theorem ofList_pairs (attrs : SortedAttributes) : ofList attrs.pairs = attrs :=
  eq_of_perm (.of_eq (pairs_foldl_insert attrs.sorted))

theorem insertPair_perm (h : ∀ pair ∈ pairs, pair.1 ≠ name) :
    (insertPair name value pairs).Perm ((name, value) :: pairs) := by
  induction pairs with
  | nil => exact .refl _
  | cons head more ih =>
      obtain ⟨hhead, hmore⟩ := List.forall_mem_cons.1 h
      rw [insertPair, if_neg hhead.symm]
      split
      · exact .refl _
      · exact ((ih hmore).cons head).trans (.swap _ _ _)

theorem foldl_insert_perm {attrs : SortedAttributes}
    (h : (attrs.pairs ++ more).Pairwise (·.1 ≠ ·.1)) :
    (more.foldl (fun attrs pair => attrs.insert pair.1 pair.2) attrs).pairs.Perm
      (attrs.pairs ++ more) := by
  induction more generalizing attrs with
  | nil => simp
  | cons pair more ih =>
      have hnew : ∀ other ∈ attrs.pairs, other.1 ≠ pair.1 := fun other hm =>
        (List.pairwise_append.1 h).2.2 other hm pair List.mem_cons_self
      have hinsert : (attrs.insert pair.1 pair.2).pairs.Perm (pair :: attrs.pairs) :=
        insertPair_perm hnew
      have hmove : ((attrs.insert pair.1 pair.2).pairs ++ more).Perm
          (attrs.pairs ++ pair :: more) :=
        (hinsert.append_right more).trans List.perm_middle.symm
      have hdistinct : ((attrs.insert pair.1 pair.2).pairs ++ more).Pairwise (·.1 ≠ ·.1) :=
        hmove.symm.pairwise h Ne.symm
      exact (ih hdistinct).trans hmove

end SortedAttributes

namespace Attributes

variable {a b attrs : Attributes} {name other value : String}

-- Sorting keeps all pairs, as each has a name of its own.
theorem sort_perm (attrs : Attributes) : attrs.sort.pairs.Perm attrs.pairs :=
  SortedAttributes.foldl_insert_perm attrs.distinct

theorem sort_toAttributes (attrs : SortedAttributes) : attrs.toAttributes.sort = attrs :=
  SortedAttributes.eq_of_perm (sort_perm _)

theorem get?_eq_some_iff : attrs.get? name = some value ↔ (name, value) ∈ attrs.pairs := by
  rw [get?, List.lookup_eq_some_iff]
  constructor
  · rintro ⟨before, after, hpairs, -⟩
    simp [hpairs]
  · intro hm
    obtain ⟨before, after, hpairs⟩ := List.append_of_mem hm
    refine ⟨before, after, hpairs, fun pair hp => ?_⟩
    have hdistinct := attrs.distinct
    rw [hpairs, List.pairwise_append] at hdistinct
    simpa using (hdistinct.2.2 pair hp (name, value) List.mem_cons_self).symm

theorem get?_eq_none_iff : attrs.get? name = none ↔ ∀ pair ∈ attrs.pairs, pair.1 ≠ name := by
  rw [get?, List.lookup_eq_none_iff]
  simp only [bne_iff_ne, ne_comm]

-- An exact name counts before all others that fold to it, and of those the first that comes by.
theorem getFolded?_eq_some_iff : attrs.getFolded? name = some value ↔
    (name, value) ∈ attrs.pairs ∨ (∀ pair ∈ attrs.pairs, pair.1 ≠ name) ∧
      ∃ before other after, attrs.pairs = before ++ (other, value) :: after ∧
        Text.fold other = Text.fold name ∧
        ∀ pair ∈ before, Text.fold pair.1 ≠ Text.fold name := by
  rw [getFolded?, ← get?_eq_some_iff, ← get?_eq_none_iff]
  cases hg : attrs.get? name with
  | some found => simp
  | none =>
      simp only [reduceCtorEq, false_or, true_and, Option.map_eq_some_iff,
        List.find?_eq_some_iff_append, Bool.not_eq_true', ← Bool.not_eq_true, Text.sameFolded_iff]
      constructor
      · rintro ⟨pair, ⟨hfold, before, after, hpairs, hbefore⟩, rfl⟩
        exact ⟨before, pair.1, after, hpairs, hfold.symm,
          fun other hm he => hbefore other hm he.symm⟩
      · rintro ⟨before, other, after, hpairs, hfold, hbefore⟩
        exact ⟨(other, value), ⟨hfold.symm, before, after, hpairs,
          fun pair hm he => hbefore pair hm he.symm⟩, rfl⟩

theorem exists_of_getFolded? (h : attrs.getFolded? name = some value) :
    ∃ other, (other, value) ∈ attrs.pairs ∧ Text.fold other = Text.fold name := by
  obtain hm | ⟨-, before, other, after, hpairs, hfold, -⟩ := getFolded?_eq_some_iff.1 h
  · exact ⟨name, hm, rfl⟩
  · exact ⟨other, by simp [hpairs], hfold⟩

theorem getFolded?_ne_none (hm : (other, value) ∈ attrs.pairs)
    (hother : Text.fold other = Text.fold name) : attrs.getFolded? name ≠ none := by
  rw [getFolded?]
  cases attrs.get? name with
  | some found => simp
  | none =>
      intro hnone
      have hall := List.find?_eq_none.1 (Option.map_eq_none_iff.1 hnone) _ hm
      exact hall (Text.sameFolded_iff.2 hother.symm)

-- No two names differ in letter case only.
def Apart (attrs : Attributes) : Prop := (attrs.pairs.map (Text.fold ·.1)).Nodup

instance (attrs : Attributes) : Decidable attrs.Apart := inferInstanceAs (Decidable (List.Nodup _))

-- Where no names differ in letter case only, a name finds the only one that folds as it does.
theorem Apart.getFolded?_eq_some_iff (ha : attrs.Apart) :
    attrs.getFolded? name = some value ↔
      ∃ other, (other, value) ∈ attrs.pairs ∧ Text.fold other = Text.fold name := by
  refine ⟨exists_of_getFolded?, ?_⟩
  rintro ⟨other, hm, hother⟩
  obtain ⟨found, hfound⟩ := Option.ne_none_iff_exists'.1 (getFolded?_ne_none hm hother)
  obtain ⟨own, hown, hfold⟩ := exists_of_getFolded? hfound
  have hsame := List.inj_on_of_nodup_map ha hown hm (hfold.trans hother.symm)
  rw [hfound, (Prod.mk.inj hsame).2]

section Perm

variable (h : a.pairs.Perm b.pairs)

include h

theorem get?_eq_of_perm (name : String) : a.get? name = b.get? name := by
  ext value
  rw [get?_eq_some_iff, get?_eq_some_iff, h.mem_iff]

theorem Apart.of_perm (ha : a.Apart) : b.Apart := (h.map _).nodup_iff.1 ha

-- Among names that differ in more than letter case, no order of the pairs matters.
theorem Apart.getFolded?_eq_of_perm (ha : a.Apart) (name : String) :
    a.getFolded? name = b.getFolded? name := by
  ext value
  rw [ha.getFolded?_eq_some_iff, (ha.of_perm h).getFolded?_eq_some_iff]
  simp only [h.mem_iff]

end Perm

end Attributes

-- No element has names of attributes that differ in letter case only.
def Dom.NamesApart (dom : Dom) : Prop :=
  ∀ node tag attrs, dom.element? node = some (tag, attrs) → attrs.Apart

theorem Dom.namesApart_iff {dom : Dom} : dom.NamesApart ↔
    ∀ node < dom.size, ∀ element ∈ dom.element? node, element.2.Apart := by
  constructor
  · intro h node _ element he
    exact h node element.1 element.2 he
  · intro h node tag attrs he
    refine h node ?_ (tag, attrs) he
    by_contra hge
    have hnone : dom.get? node = none := Array.getElem?_eq_none (Nat.le_of_not_lt hge)
    simp [element?, content?, hnone] at he

instance (dom : Dom) : Decidable dom.NamesApart := decidable_of_iff _ dom.namesApart_iff.symm

-- Whatever the layout, attributes are written down as they were read.
theorem Layout.sort_fill (layout : Layout) (node : Node) (attrs : SortedAttributes) :
    (layout.fill node attrs).sort = attrs :=
  SortedAttributes.eq_of_perm ((Attributes.sort_perm _).trans (layout.perm node attrs))

end CssQuery
