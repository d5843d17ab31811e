import CssQuery.Tree
import Mathlib.Data.Finset.Card
import Mathlib.Data.List.Nodup
import Mathlib.Logic.Relation

namespace CssQuery

-- One or more steps lead from a node to another.
def Met (step : Node → Option Node) : Node → Node → Prop :=
  Relation.TransGen fun a b => step a = some b

-- No walk comes back to where it was, and no more nodes than the bound are linked.
structure Finishes (step : Node → Option Node) (bound : Nat) : Prop where
  acyclic : ∀ a, ¬ Met step a a
  within : ∃ nodes : Finset Node, nodes.card ≤ bound ∧
    ∀ a b, step a = some b → a ∈ nodes ∧ b ∈ nodes

variable {step other : Node → Option Node} {bound : Nat} {a b c : Node}

theorem Met.of_step (h : step a = some b) : Met step a b := .single h

theorem Met.trans (hab : Met step a b) (hbc : Met step b c) : Met step a c :=
  Relation.TransGen.trans hab hbc

theorem Met.cons (h : step a = some b) (hbc : Met step b c) : Met step a c :=
  Relation.TransGen.head h hbc

theorem met_iff : Met step a b ↔ ∃ c, step a = some c ∧ (b = c ∨ Met step c b) := by
  constructor
  · intro h
    obtain ⟨c, hc, hcb⟩ := Relation.TransGen.head'_iff.1 h
    rcases Relation.reflTransGen_iff_eq_or_transGen.1 hcb with he | hm
    · exact ⟨c, hc, .inl he⟩
    · exact ⟨c, hc, .inr hm⟩
  · rintro ⟨c, hc, rfl | hm⟩
    · exact .of_step hc
    · exact hm.cons hc

theorem Met.ne_none (h : Met step a b) : step a ≠ none := by
  obtain ⟨c, hc, -⟩ := met_iff.1 h
  simp [hc]

-- A node has one next node, so what is met after it is met from there.
theorem Met.of_cons (h : Met step a c) (hs : step a = some b) : c = b ∨ Met step b c := by
  obtain ⟨d, hd, hdc⟩ := met_iff.1 h
  rw [hs, Option.some.injEq] at hd
  exact hd ▸ hdc

-- Two nodes met from the same node are met from each other.
theorem Met.total (hb : Met step a b) (hc : Met step a c) :
    b = c ∨ Met step b c ∨ Met step c b := by
  have hu : Relator.RightUnique fun x y => step x = some y :=
    fun _ _ _ hy hz => Option.some.inj (hy.symm.trans hz)
  have htotal :=
    Relation.ReflTransGen.total_of_right_unique hu hb.to_reflTransGen hc.to_reflTransGen
  rcases htotal with h | h
  · rcases Relation.reflTransGen_iff_eq_or_transGen.1 h with he | hm
    · exact .inl he.symm
    · exact .inr (.inl hm)
  · rcases Relation.reflTransGen_iff_eq_or_transGen.1 h with he | hm
    · exact .inl he
    · exact .inr (.inr hm)

theorem Met.mono (h : ∀ x y, step x = some y → Met other x y) (hm : Met step a b) :
    Met other a b := by
  induction hm with
  | single hs => exact h _ _ hs
  | tail _ hs ih => exact ih.trans (h _ _ hs)

theorem met_reverse (h : ∀ x y, step x = some y ↔ other y = some x) :
    Met step a b ↔ Met other b a := by
  have hf : (fun x y => step x = some y) = Function.swap fun x y => other x = some y := by
    funext x y
    exact propext (h x y)
  rw [Met, hf, Relation.transGen_swap]
  rfl

theorem Finishes.restrict (hf : Finishes step bound)
    (h : ∀ x y, other x = some y → step x = some y) : Finishes other bound := by
  obtain ⟨nodes, hcard, hnodes⟩ := hf.within
  exact ⟨fun x hx => hf.acyclic x (hx.mono fun x y hs => .of_step (h x y hs)),
    nodes, hcard, fun x y hs => hnodes x y (h x y hs)⟩

theorem Finishes.reverse (hf : Finishes step bound)
    (h : ∀ x y, other x = some y ↔ step y = some x) : Finishes other bound := by
  obtain ⟨nodes, hcard, hnodes⟩ := hf.within
  exact ⟨fun x hx => hf.acyclic x ((met_reverse h).1 hx),
    nodes, hcard, fun x y hs => (hnodes y x ((h x y).1 hs)).symm⟩

theorem walk_eq_nil (h : step a = none) : walk step bound a = [] := by
  cases bound <;> simp [walk, h]

theorem walk_of_step (h : step a = some b) : walk step (bound + 1) a = b :: walk step bound b := by
  simp only [walk, h]

theorem length_walk_le : (walk step bound a).length ≤ bound := by
  induction bound generalizing a with
  | zero => simp [walk]
  | succ bound ih =>
      cases hs : step a with
      | none => simp [walk, hs]
      | some next => simpa [walk, hs] using ih

theorem met_of_mem_walk (h : b ∈ walk step bound a) : Met step a b := by
  induction bound generalizing a with
  | zero => simp [walk] at h
  | succ bound ih =>
      cases hs : step a with
      | none => simp [walk, hs] at h
      | some next =>
          simp only [walk, hs, List.mem_cons] at h
          rcases h with rfl | h
          · exact .of_step hs
          · exact (ih h).cons hs

-- A later node of a walk is met from an earlier one.
theorem walk_pairwise (step : Node → Option Node) (bound : Nat) (a : Node) :
    (a :: walk step bound a).Pairwise (Met step) := by
  induction bound generalizing a with
  | zero => simp [walk]
  | succ bound ih =>
      refine List.pairwise_cons.2 ⟨fun b hb => met_of_mem_walk hb, ?_⟩
      cases hs : step a with
      | none => simp [walk, hs]
      | some next => simpa only [walk, hs] using ih next

-- A walk that takes fewer steps than it may has met all there is.
theorem mem_walk_of_met (hl : (walk step bound a).length < bound) (h : Met step a b) :
    b ∈ walk step bound a := by
  induction bound generalizing a with
  | zero => simp at hl
  | succ bound ih =>
      obtain ⟨next, hs, hb⟩ := met_iff.1 h
      simp only [walk, hs, List.length_cons, List.mem_cons] at hl ⊢
      rcases hb with rfl | hb
      · exact .inl rfl
      · exact .inr (ih (by omega) hb)

theorem walk_succ (hl : (walk step bound a).length < bound) :
    walk step (bound + 1) a = walk step bound a := by
  induction bound generalizing a with
  | zero => simp at hl
  | succ bound ih =>
      cases hs : step a with
      | none => rw [walk_eq_nil hs, walk_eq_nil hs]
      | some next =>
          rw [walk_of_step hs, List.length_cons] at hl
          rw [walk_of_step hs, walk_of_step hs, ih (by omega)]

-- Stepping from node to node goes along the walk.
theorem iterate_bind_eq (step : Node → Option Node) (count : Nat) (a : Node) :
    (Option.bind · step)^[count] (some a) = (a :: walk step count a)[count]? := by
  induction count generalizing a with
  | zero => rfl
  | succ count ih =>
      rw [Function.iterate_succ_apply, Option.bind_some]
      cases hs : step a with
      | none =>
          have hnone : (Option.bind · step)^[count] none = none :=
            Function.iterate_fixed (Option.bind_none step) count
          rw [hnone, walk_eq_nil hs]
          rfl
      | some next => rw [ih, walk_of_step hs, List.getElem?_cons_succ]

namespace Finishes

variable (hf : Finishes step bound)

include hf

theorem nodup : (a :: walk step bound a).Nodup := by
  refine List.Pairwise.imp (fun {x y} h he => ?_) (walk_pairwise step bound a)
  subst he
  exact hf.acyclic x h

-- The nodes of a walk differ and are linked, so there are no more than the bound.
theorem length_lt (hs : step a = some b) : (walk step bound a).length < bound := by
  obtain ⟨nodes, hcard, hnodes⟩ := hf.within
  have hlinked : ∀ c ∈ a :: walk step bound a, c ∈ nodes := by
    intro c hc
    rcases List.mem_cons.1 hc with rfl | hc
    · exact (hnodes c b hs).1
    · obtain ⟨d, -, hd⟩ := Relation.TransGen.tail'_iff.1 (met_of_mem_walk hc)
      exact (hnodes d c hd).2
  have hlen : (a :: walk step bound a).toFinset.card ≤ nodes.card :=
    Finset.card_le_card fun c hc => hlinked c (List.mem_toFinset.1 hc)
  rw [List.toFinset_card_of_nodup hf.nodup, List.length_cons] at hlen
  omega

theorem mem_walk : b ∈ walk step bound a ↔ Met step a b := by
  refine ⟨met_of_mem_walk, fun h => ?_⟩
  obtain ⟨c, hs, -⟩ := met_iff.1 h
  exact mem_walk_of_met (hf.length_lt hs) h

theorem walk_eq_cons (hs : step a = some b) : walk step bound a = b :: walk step bound b := by
  have hl := hf.length_lt hs
  obtain ⟨n, rfl⟩ : ∃ n, bound = n + 1 := ⟨bound - 1, by omega⟩
  rw [walk_of_step hs, List.length_cons] at hl
  rw [walk_of_step hs, walk_succ (by omega)]

theorem wellFounded : WellFounded fun b a => step a = some b := by
  refine Subrelation.wf (r := InvImage (· < ·) fun a => (walk step bound a).length) ?_
    (InvImage.wf _ Nat.lt_wfRel.wf)
  intro b a hs
  simp [InvImage, hf.walk_eq_cons hs]

theorem iterate_eq_none (hpos : 0 < bound) : (Option.bind · step)^[bound] (some a) = none := by
  have hlength : (walk step bound a).length < bound := by
    cases hs : step a with
    | none => rwa [walk_eq_nil hs]
    | some next => exact hf.length_lt hs
  rw [iterate_bind_eq, List.getElem?_eq_none]
  exact hlength

end Finishes

end CssQuery
