import CssQuery.Dom.Load
import Mathlib.Data.List.Basic
import Mathlib.Data.List.Lex
import Mathlib.Order.Defs.LinearOrder

namespace CssQuery

-- A way that is bad, where none before it is. Ways are in lexicographic order, which is
-- pre-order: a node comes before what lies below it, and that before what lies in a later
-- place.
structure First (bad : List Nat → Prop) (way : List Nat) : Prop where
  here : bad way
  not_before : ∀ other < way, ¬ bad other

namespace First

variable {bad : List Nat → Prop} {way other : List Nat} {place : Nat}

theorem unique (h : First bad way) (hother : First bad other) : way = other := by
  rcases lt_trichotomy way other with hlt | he | hlt
  · exact absurd h.here (hother.not_before way hlt)
  · exact he
  · exact absurd hother.here (h.not_before other hlt)

theorem nil (h : bad []) : First bad [] := ⟨h, fun other hlt => absurd hlt (List.not_lt_nil other)⟩

-- What is first in one place is first of all, if there is nothing in the places before.
theorem cons (hnil : ¬ bad []) (hbefore : ∀ earlier < place, ∀ way, ¬ bad (earlier :: way))
    (h : First (fun way => bad (place :: way)) way) : First bad (place :: way) := by
  refine ⟨h.here, fun other hlt => ?_⟩
  cases other with
  | nil => exact hnil
  | cons earlier rest =>
      rcases List.cons_lt_cons_iff.1 hlt with hplace | ⟨rfl, hrest⟩
      · exact hbefore earlier hplace rest
      · exact h.not_before rest hrest

end First

namespace Description

-- What a way leads to. Each step of it is a place among siblings.
def at? : Description → List Nat → Option Description
  | description, [] => some description
  | .element _ _ children, place :: way => (children[place]?).bind (at? · way)
  | .text _, _ :: _ | .comment _, _ :: _ => none

def listAt? (descriptions : List Description) : List Nat → Option Description
  | [] => none
  | place :: way => (descriptions[place]?).bind (at? · way)

-- An element with an empty tag, whatever else it has.
def LacksTag (found : Option Description) : Prop :=
  ∃ attrs children, found = some (.element "" attrs children)

def UntaggedAt (description : Description) (way : List Nat) : Prop := LacksTag (description.at? way)

def ListUntaggedAt (descriptions : List Description) (way : List Nat) : Prop :=
  LacksTag (listAt? descriptions way)

variable {tag : String} {attrs : SortedAttributes} {children before more : List Description}
  {first : Description} {way : List Nat} {place : Nat}

theorem untaggedAt_nil : UntaggedAt (.element tag attrs children) [] ↔ tag = "" := by
  simp [UntaggedAt, LacksTag, at?]

theorem not_listUntaggedAt_nil : ¬ ListUntaggedAt children [] := nofun

theorem untaggedAt_eq (htag : tag ≠ "") :
    UntaggedAt (.element tag attrs children) = ListUntaggedAt children := by
  funext way
  cases way with
  | nil => exact propext (iff_of_false (mt untaggedAt_nil.1 htag) not_listUntaggedAt_nil)
  | cons place way => rfl

theorem not_untaggedAt_text (text : String) : ¬ UntaggedAt (.text text) way := by
  cases way <;> simp [UntaggedAt, LacksTag, at?]

theorem not_untaggedAt_comment (text : String) : ¬ UntaggedAt (.comment text) way := by
  cases way <;> simp [UntaggedAt, LacksTag, at?]

theorem listUntaggedAt_length :
    ListUntaggedAt (before ++ first :: more) (before.length :: way) ↔ first.UntaggedAt way := by
  simp [ListUntaggedAt, listAt?, UntaggedAt]

theorem lt_length_of_listUntaggedAt (h : ListUntaggedAt children (place :: way)) :
    place < children.length := by
  by_contra hn
  simp [ListUntaggedAt, LacksTag, listAt?, hn] at h

end Description

namespace Dom

open Description

-- Where nothing is bad something grows, and otherwise the first that is bad is told, by the
-- way that leads to it.
def Settles (path : List Nat) (bad : List Nat → Prop) : Except LoadError Dom → Prop
  | .ok _ => ∀ way, ¬ bad way
  | .error error => ∃ way, error = .emptyTag (path ++ way) ∧ First bad way

mutual

theorem grow_settles (layout : Layout) (dom : Dom) (parent : Node) (path : List Nat) :
    (description : Description) →
    Settles path description.UntaggedAt (dom.grow layout parent path description)
  | .element tag attrs children => by
      rw [grow]
      split
      · next htag =>
          have hbad : UntaggedAt (.element tag attrs children) [] :=
            untaggedAt_nil.2 (String.isEmpty_iff.1 htag)
          exact ⟨[], by rw [List.append_nil], .nil hbad⟩
      · next htag =>
          rw [untaggedAt_eq (mt String.isEmpty_iff.2 htag)]
          exact growAll_settles layout _ dom.size path [] children nofun
  | .text text => fun _ => not_untaggedAt_text text
  | .comment text => fun _ => not_untaggedAt_comment text

-- The descriptions are tried in turn, while no tag is missing in those before.
theorem growAll_settles (layout : Layout) (dom : Dom) (parent : Node) (path : List Nat)
    (before : List Description) : (more : List Description) →
    (∀ place < before.length, ∀ way, ¬ ListUntaggedAt (before ++ more) (place :: way)) →
      Settles path (ListUntaggedAt (before ++ more))
        (dom.growAll layout parent path before.length more)
  | [], hbefore => fun way hbad => by
      cases way with
      | nil => exact not_listUntaggedAt_nil hbad
      | cons place way =>
          have hlt := lt_length_of_listUntaggedAt hbad
          rw [List.append_nil] at hlt
          exact hbefore place hlt way hbad
  | first :: more, hbefore => by
      have hfirst := grow_settles layout dom parent (path ++ [before.length]) first
      rw [growAll]
      cases hgrow : dom.grow layout parent (path ++ [before.length]) first with
      | error error =>
          rw [hgrow] at hfirst
          obtain ⟨way, rfl, hway⟩ := hfirst
          refine ⟨before.length :: way, by simp, .cons not_listUntaggedAt_nil hbefore ?_⟩
          simpa only [listUntaggedAt_length] using hway
      | ok grown =>
          rw [hgrow] at hfirst
          have hsplit : before ++ first :: more = (before ++ [first]) ++ more := by simp
          have hlength : before.length + 1 = (before ++ [first]).length := by simp
          rw [hsplit, hlength]
          refine growAll_settles layout grown parent path (before ++ [first]) more ?_
          intro place hlt way
          rw [← hsplit]
          rcases Nat.lt_succ_iff_lt_or_eq.1 (hlength ▸ hlt) with hlt | rfl
          · exact hbefore place hlt way
          · exact mt listUntaggedAt_length.1 (hfirst way)

end

-- Descriptions give no document exactly if some element lacks a tag, at any depth. What is
-- told then is the way to the first of them in pre-order.
theorem ofDescriptions_eq_error_iff (layout : Layout) (descriptions : List Description) :
    ((∃ error, ofDescriptions layout descriptions = .error error) ↔
      ∃ way, ListUntaggedAt descriptions way) ∧
    ∀ error, ofDescriptions layout descriptions = .error error ↔
      ∃ way, error = .emptyTag way ∧ First (ListUntaggedAt descriptions) way ∧
        error.message = "element at " ++ "/".intercalate (way.map toString) ++
          " has an empty tag name" := by
  have hsettles : Settles [] (ListUntaggedAt descriptions) (ofDescriptions layout descriptions) :=
    growAll_settles layout .new root [] [] descriptions nofun
  cases hload : ofDescriptions layout descriptions with
  | ok dom =>
      rw [hload] at hsettles
      refine ⟨iff_of_false nofun fun hbad => hsettles _ hbad.choose_spec, fun error => ?_⟩
      exact iff_of_false nofun fun ⟨way, _, hway, _⟩ => hsettles way hway.here
  | error error =>
      rw [hload] at hsettles
      obtain ⟨way, rfl, hway⟩ := hsettles
      refine ⟨iff_of_true ⟨_, rfl⟩ ⟨way, hway.here⟩, fun error => ⟨?_, ?_⟩⟩
      · intro he
        obtain rfl := Except.error.inj he
        exact ⟨way, rfl, hway, rfl⟩
      · rintro ⟨other, rfl, hother, -⟩
        rw [List.nil_append, hway.unique hother]

-- The second child of the first node is the first that lacks a tag.
example : ofDescriptions .byName [.element "div" .empty [.text "x", .element "" .empty []],
    .element "" .empty []] = .error (.emptyTag [0, 1]) := rfl

end Dom

end CssQuery
