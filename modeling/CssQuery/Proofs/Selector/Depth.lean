import CssQuery.Proofs.Selector.Grammar
import Mathlib.Order.MinMax

namespace CssQuery

mutual

def Simple.depth : Simple → Nat
  | .nthChild _ _ (some selectors) => SelectorList.depth selectors + 1
  | .noneOf selectors | .anyOf selectors => SelectorList.depth selectors + 1
  | _ => 0

def Compound.depth : Compound → Nat
  | [] => 0
  | simple :: more => max simple.depth (Compound.depth more)

def Complex.depth : Complex → Nat
  | ⟨subject, links⟩ => max (Compound.depth subject) (linksDepth links)

def linksDepth : List Link → Nat
  | [] => 0
  | ⟨_, compound⟩ :: more => max (Compound.depth compound) (linksDepth more)

-- How deep lists are nested in the parentheses of a list. Side by side they do not add up.
def SelectorList.depth : SelectorList → Nat
  | [] => 0
  | complex :: more => max complex.depth (SelectorList.depth more)

end

theorem Complex.depth_eq (complex : Complex) :
    complex.depth = max (Compound.depth complex.subject) (linksDepth complex.links) := by
  cases complex with
  | mk subject links => rfl

namespace Grammar

variable {ks : List Kind} {n small large : Nat} {simple : Simple} {compound : Compound}
  {complex : Complex} {selectors : SelectorList} {Nested : List Kind → SelectorList → Prop}

-- Lists in parentheses that are less deep.
def Shallow (Nested : List Kind → SelectorList → Prop) (n : Nat) (ks : List Kind)
    (selectors : SelectorList) : Prop :=
  Nested ks selectors ∧ selectors.depth < n

theorem writesCall_shallow {function : PseudoFunction} :
    WritesCall (Shallow Nested n) function ks simple ↔
      WritesCall Nested function ks simple ∧ simple.depth ≤ n := by
  constructor
  · intro h
    cases h with
    | nthChild hks => exact ⟨.nthChild hks, Nat.zero_le _⟩
    | nthChildOf hks hk hls => exact ⟨.nthChildOf hks hk hls.1, hls.2⟩
    | nthOfType hks => exact ⟨.nthOfType hks, Nat.zero_le _⟩
    | noneOf hls => exact ⟨.noneOf hls.1, hls.2⟩
    | anyOf hls => exact ⟨.anyOf hls.1, hls.2⟩
  · rintro ⟨h, hdepth⟩
    cases h with
    | nthChild hks => exact .nthChild hks
    | nthChildOf hks hk hls => exact .nthChildOf hks hk ⟨hls, hdepth⟩
    | nthOfType hks => exact .nthOfType hks
    | noneOf hls => exact .noneOf ⟨hls, hdepth⟩
    | anyOf hls => exact .anyOf ⟨hls, hdepth⟩

theorem writesPseudo_shallow : WritesPseudo (Shallow Nested n) ks simple ↔
    WritesPseudo Nested ks simple ∧ simple.depth ≤ n := by
  constructor
  · intro h
    cases h with
    | keyword hname => exact ⟨.keyword hname, Nat.zero_le _⟩
    | dynamic hname => exact ⟨.dynamic hname, Nat.zero_le _⟩
    | call hname hcall => exact (writesCall_shallow.1 hcall).imp_left (.call hname)
  · rintro ⟨h, hdepth⟩
    cases h with
    | keyword hname => exact .keyword hname
    | dynamic hname => exact .dynamic hname
    | call hname hcall => exact .call hname (writesCall_shallow.2 ⟨hcall, hdepth⟩)

theorem writesSimple_shallow : WritesSimple (Shallow Nested n) ks simple ↔
    WritesSimple Nested ks simple ∧ simple.depth ≤ n := by
  constructor
  · intro h
    cases h with
    | hasId => exact ⟨.hasId, Nat.zero_le _⟩
    | hasClass => exact ⟨.hasClass, Nat.zero_le _⟩
    | hasAttribute hks => exact ⟨.hasAttribute hks, Nat.zero_le _⟩
    | pseudo hks => exact (writesPseudo_shallow.1 hks).imp_left .pseudo
  · rintro ⟨h, hdepth⟩
    cases h with
    | hasId => exact .hasId
    | hasClass => exact .hasClass
    | hasAttribute hks => exact .hasAttribute hks
    | pseudo hks => exact .pseudo (writesPseudo_shallow.2 ⟨hks, hdepth⟩)

theorem writesSimples_shallow : WritesSimples (Shallow Nested n) ks compound ↔
    WritesSimples Nested ks compound ∧ compound.depth ≤ n := by
  constructor
  · intro h
    induction h with
    | nil => exact ⟨.nil, Nat.zero_le _⟩
    | cons hks _ ih =>
        obtain ⟨hks, hdepth⟩ := writesSimple_shallow.1 hks
        exact ⟨.cons hks ih.1, max_le hdepth ih.2⟩
  · rintro ⟨h, hdepth⟩
    induction h with
    | nil => exact .nil
    | cons hks _ ih =>
        obtain ⟨hfirst, hmore⟩ := max_le_iff.1 hdepth
        exact .cons (writesSimple_shallow.2 ⟨hks, hfirst⟩) (ih hmore)

theorem writesCompound_shallow : WritesCompound (Shallow Nested n) ks compound ↔
    WritesCompound Nested ks compound ∧ compound.depth ≤ n := by
  constructor
  · intro h
    cases h with
    | typed hk hms =>
        obtain ⟨hms, hdepth⟩ := writesSimples_shallow.1 hms
        refine ⟨.typed hk hms, max_le ?_ hdepth⟩
        cases hk <;> exact Nat.zero_le _
    | untyped hks hne => exact (writesSimples_shallow.1 hks).imp_left (.untyped · hne)
  · rintro ⟨h, hdepth⟩
    cases h with
    | typed hk hms =>
        exact .typed hk (writesSimples_shallow.2 ⟨hms, (max_le_iff.1 hdepth).2⟩)
    | untyped hks hne => exact .untyped (writesSimples_shallow.2 ⟨hks, hdepth⟩) hne

theorem writesComplex_shallow : WritesComplex (Shallow Nested n) ks complex ↔
    WritesComplex Nested ks complex ∧ complex.depth ≤ n := by
  constructor
  · intro h
    induction h with
    | compound hks =>
        obtain ⟨hks, hdepth⟩ := writesCompound_shallow.1 hks
        exact ⟨.compound hks, max_le hdepth (Nat.zero_le _)⟩
    | step _ hcs hks ih =>
        obtain ⟨hks, hdepth⟩ := writesCompound_shallow.1 hks
        rw [Complex.depth_eq] at ih
        exact ⟨.step ih.1 hcs hks, max_le hdepth ih.2⟩
  · rintro ⟨h, hdepth⟩
    induction h with
    | compound hks =>
        exact .compound (writesCompound_shallow.2 ⟨hks, (max_le_iff.1 hdepth).1⟩)
    | step _ hcs hks ih =>
        obtain ⟨hsubject, hleft⟩ := max_le_iff.1 hdepth
        rw [Complex.depth_eq] at ih
        exact .step (ih hleft) hcs (writesCompound_shallow.2 ⟨hks, hsubject⟩)

theorem writesList_shallow : WritesList (Shallow Nested n) ks selectors ↔
    WritesList Nested ks selectors ∧ selectors.depth ≤ n := by
  constructor
  · intro h
    induction h with
    | one has hks hbs =>
        obtain ⟨hks, hdepth⟩ := writesComplex_shallow.1 hks
        exact ⟨.one has hks hbs, max_le hdepth (Nat.zero_le _)⟩
    | cons has hks hbs _ ih =>
        obtain ⟨hks, hdepth⟩ := writesComplex_shallow.1 hks
        exact ⟨.cons has hks hbs ih.1, max_le hdepth ih.2⟩
  · rintro ⟨h, hdepth⟩
    induction h with
    | one has hks hbs =>
        exact .one has (writesComplex_shallow.2 ⟨hks, (max_le_iff.1 hdepth).1⟩) hbs
    | cons has hks hbs _ ih =>
        obtain ⟨hfirst, hmore⟩ := max_le_iff.1 hdepth
        exact .cons has (writesComplex_shallow.2 ⟨hks, hfirst⟩) hbs (ih hmore)

theorem writesNested_iff (h : small ≤ large) : WritesNested small ks selectors ↔
    WritesNested large ks selectors ∧ selectors.depth < small := by
  induction small generalizing large ks selectors with
  | zero => exact iff_of_false id fun h => Nat.not_lt_zero _ h.2
  | succ small ih =>
      obtain ⟨large, rfl⟩ := Nat.exists_eq_add_of_lt h
      have hnested : WritesNested small = Shallow (WritesNested (small + large)) small :=
        funext₂ fun ks selectors => propext (ih (Nat.le_add_right _ _))
      rw [WritesNested, WritesNested, hnested, writesList_shallow, Nat.lt_succ_iff]

-- A lower limit shuts out the lists that are deeper and no others.
theorem writes_iff (h : small ≤ large) : Writes small ks selectors ↔
    Writes large ks selectors ∧ selectors.depth ≤ small := by
  rw [← Nat.lt_succ_iff]
  exact writesNested_iff (Nat.succ_le_succ h)

end Grammar

end CssQuery
