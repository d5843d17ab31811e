import CssQuery.Proofs.Selector.Depth
import CssQuery.Proofs.Selector.Reader.List

namespace CssQuery.Reader

variable {α β : Type} {limit : Nat}

-- Under a low limit a reader fails at the limit, or else the limit changes nothing.
def Agrees (limit : Nat) (low high : Except SelectorError α) : Prop :=
  low = high ∨ ∃ p, low = .error (.malformed p (.nestedTooDeep limit))

section Agrees

variable {low high : Except SelectorError α}

theorem Agrees.refl (result : Except SelectorError α) : Agrees limit result result := .inl rfl

theorem Agrees.bind {nextLow nextHigh : α → Except SelectorError β} (h : Agrees limit low high)
    (hnext : ∀ a, Agrees limit (nextLow a) (nextHigh a)) :
    Agrees limit (low >>= nextLow) (high >>= nextHigh) := by
  obtain rfl | ⟨p, rfl⟩ := h
  · cases low with
    | error error => exact .refl _
    | ok a => exact hnext a
  · exact .inr ⟨p, rfl⟩

theorem Agrees.map (h : Agrees limit low high) (f : α → β) :
    Agrees limit (low.map f) (high.map f) := by
  obtain rfl | ⟨p, rfl⟩ := h
  · exact .refl _
  · exact .inr ⟨p, rfl⟩

end Agrees

section Steps

-- Readers as chains of steps, each of which ends the chain where it fails.

variable {nested : ListReader} {finish : Nat} {ts : List Token}

theorem simples_eq_bind : simples nested finish ts = (do
    match ← simple? nested finish false ts with
    | none => return .ofNone [] ts
    | some first =>
        let more ← simples nested finish first.rest
        return (first.continuedBy (more.map (first.value :: ·))).weaken) := by
  rw [simples]
  rcases simple? nested finish false ts with error | _ | first
  · rfl
  · rfl
  · simp only [bind, Except.bind]
    cases simples nested finish first.rest <;> rfl

theorem chain_eq_bind {sofar : Complex} : chain nested finish sofar ts = (do
    match ← combinator? finish ts with
    | none => return blanks sofar ts
    | some combinator =>
        let subject ← compound nested finish combinator.rest
        let complex ← chain nested finish
          ⟨subject.value, ⟨combinator.value, sofar.subject⟩ :: sofar.links⟩ subject.rest
        return (combinator.closedBy (subject.continuedBy complex)).weaken) := by
  rw [chain]
  rcases combinator? finish ts with error | _ | combinator
  · rfl
  · rfl
  · simp only [bind, Except.bind]
    cases compound nested finish combinator.rest with
    | error error => rfl
    | ok subject =>
        dsimp only
        split
        · next hchain => rw [hchain]
        · next hchain =>
            rw [hchain]
            rfl

theorem complex_eq_bind : complex nested finish ts = (do
    let subject ← compound nested finish ts
    (chain nested finish ⟨subject.value, []⟩ subject.rest).map subject.continuedBy) := by
  rw [complex]
  cases compound nested finish ts <;> rfl

theorem selectorList_eq_bind : selectorList nested finish ts = (do
    let read ← complex nested finish (skipBlanks ts)
    let first := (blanks () ts).closedBy read
    match comma? first.rest with
    | none => return first.map ([·])
    | some comma =>
        let more ← selectorList nested finish comma.rest
        return first.followedBy (comma.followedBy (more.map (first.value :: ·)))) := by
  rw [selectorList]
  cases complex nested finish (skipBlanks ts) with
  | error error => rfl
  | ok read =>
      simp only [bind, Except.bind]
      cases comma? ((blanks () ts).closedBy read).rest with
      | none => rfl
      | some comma =>
          dsimp only
          cases selectorList nested finish comma.rest <;> rfl

end Steps

section Readers

variable {low high : ListReader} {finish colon : Nat} {ts : List Token}
  (hnested : ∀ colon ts, Agrees limit (low colon ts) (high colon ts))

include hnested

theorem agrees_listCall :
    Agrees limit (listCall low finish colon ts) (listCall high finish colon ts) :=
  (hnested colon ts).bind fun _ => .refl _

theorem agrees_formulaCall {allowOf : Bool} :
    Agrees limit (formulaCall low finish colon allowOf ts)
      (formulaCall high finish colon allowOf ts) := by
  refine (Agrees.refl (formula finish colon allowOf ts)).bind fun read => ?_
  split
  split
  · exact (agrees_listCall hnested).bind fun _ => .refl _
  · exact .refl _

theorem agrees_call {function : PseudoFunction} :
    Agrees limit (call low finish colon function ts) (call high finish colon function ts) := by
  cases function with
  | nthChild edge => exact (agrees_formulaCall hnested).map _
  | nthOfType edge => exact (agrees_formulaCall hnested).map _
  | noneOf => exact (agrees_listCall hnested).map _
  | anyOf => exact (agrees_listCall hnested).map _
  | has => exact .refl _

theorem agrees_pseudoClass :
    Agrees limit (pseudoClass low finish colon ts) (pseudoClass high finish colon ts) := by
  unfold pseudoClass
  split
  · exact .refl _
  · split
    · exact .refl _
    · exact .refl _
    · split
      · exact (agrees_call hnested).map _
      · exact .refl _
    · exact .refl _

theorem agrees_simple? {isFirst : Bool} :
    Agrees limit (simple? low finish isFirst ts) (simple? high finish isFirst ts) := by
  unfold simple?
  split
  · exact .refl _
  · split
    case h_7 => exact (agrees_pseudoClass hnested).map _
    all_goals exact .refl _

theorem agrees_simples : Agrees limit (simples low finish ts) (simples high finish ts) := by
  obtain ⟨n, hn⟩ : ∃ n, ts.length = n := ⟨_, rfl⟩
  induction n using Nat.strongRecOn generalizing ts with
  | _ n ih =>
      subst hn
      rw [simples_eq_bind, simples_eq_bind]
      refine (agrees_simple? hnested).bind fun found => ?_
      cases found with
      | none => exact .refl _
      | some first => exact (ih _ (first.within) rfl).bind fun _ => .refl _

theorem agrees_compound : Agrees limit (compound low finish ts) (compound high finish ts) := by
  have hfirst : Agrees limit (simple? low finish true ts) (simple? high finish true ts) :=
    agrees_simple? hnested
  have hmore (rest : List Token) : Agrees limit (simples low finish rest)
      (simples high finish rest) := agrees_simples hnested
  unfold compound
  obtain hsame | ⟨p, hdeep⟩ := hfirst
  · rw [hsame]
    split
    · exact .refl _
    · exact .refl _
    · next first _ =>
        obtain hsame | ⟨p, hdeep⟩ := hmore first.rest
        · rw [hsame]
          exact .refl _
        · rw [hdeep]
          exact .inr ⟨p, rfl⟩
  · rw [hdeep]
    exact .inr ⟨p, rfl⟩

theorem agrees_chain {sofar : Complex} :
    Agrees limit (chain low finish sofar ts) (chain high finish sofar ts) := by
  obtain ⟨n, hn⟩ : ∃ n, ts.length = n := ⟨_, rfl⟩
  induction n using Nat.strongRecOn generalizing ts sofar with
  | _ n ih =>
      subst hn
      rw [chain_eq_bind, chain_eq_bind]
      refine (Agrees.refl (combinator? finish ts)).bind fun found => ?_
      cases found with
      | none => exact .refl _
      | some combinator =>
          refine (agrees_compound hnested).bind fun subject => ?_
          have hlt : subject.rest.length < ts.length :=
            Nat.lt_of_lt_of_le subject.within (Nat.le_of_lt_succ combinator.within)
          exact (ih _ hlt rfl).bind fun _ => .refl _

theorem agrees_complex : Agrees limit (complex low finish ts) (complex high finish ts) := by
  rw [complex_eq_bind, complex_eq_bind]
  refine (agrees_compound hnested).bind fun subject => ?_
  exact (agrees_chain hnested).map _

theorem agrees_selectorList :
    Agrees limit (selectorList low finish ts) (selectorList high finish ts) := by
  obtain ⟨n, hn⟩ : ∃ n, ts.length = n := ⟨_, rfl⟩
  induction n using Nat.strongRecOn generalizing ts with
  | _ n ih =>
      subst hn
      rw [selectorList_eq_bind, selectorList_eq_bind]
      refine (agrees_complex hnested).bind fun read => ?_
      dsimp only
      split
      · exact .refl _
      · next comma hcomma =>
          have hlt : comma.rest.length < ts.length :=
            Nat.lt_trans comma.within ((blanks () ts).closedBy read).within
          exact (ih _ hlt rfl).bind fun _ => .refl _

end Readers

theorem agrees_nestedList {finish small large n m : Nat} (h : n ≤ m) (colon : Nat)
    (ts : List Token) : Agrees small (nestedList finish small n colon ts)
      (nestedList finish large m colon ts) := by
  induction n generalizing m colon ts with
  | zero => exact .inr ⟨colon, rfl⟩
  | succ n ih =>
      obtain ⟨m, rfl⟩ := Nat.exists_eq_add_of_lt h
      rw [nestedList, nestedList]
      split
      · exact .refl _
      · exact agrees_selectorList fun colon ts => ih (Nat.le_add_right _ _) colon ts

end CssQuery.Reader

namespace CssQuery.SelectorList

open Reader

variable {text : String} {small large : Nat} {list : SelectorList}

theorem ofText_agrees (h : small ≤ large) :
    Agrees small (ofText text small) (ofText text large) := by
  refine (Agrees.refl (Token.scan text)).bind fun tokens => ?_
  dsimp only
  split
  · exact .refl _
  · exact (agrees_selectorList (agrees_nestedList h)).bind fun _ => .refl _

theorem ofText_eq_ok_of_le (h : small ≤ large) (hlarge : ofText text large = .ok list) :
    ofText text small = .ok list ↔ list.depth ≤ small := by
  cases hscan : Token.scan text with
  | error error => simp [ofText, hscan, bind, Except.bind] at hlarge
  | ok tokens =>
      rw [ofText_eq_ok hscan] at hlarge ⊢
      rw [Grammar.writes_iff h, and_iff_right hlarge]

-- Between two limits texts differ only where lists lie deeper than the lower one.
theorem ofText_limit (h : small ≤ large) :
    (∀ list, ofText text small = .ok list → ofText text large = .ok list) ∧
      (∀ error, ofText text small = .error error →
        (∀ p limit, error ≠ .malformed p (.nestedTooDeep limit)) →
          ofText text large = .error error) ∧
      ∀ list, ofText text large = .ok list →
        (list.depth ≤ small → ofText text small = .ok list) ∧
          (small < list.depth →
            ∃ p, ofText text small = .error (.malformed p (.nestedTooDeep small))) := by
  have hagrees : Agrees small (ofText text small) (ofText text large) := ofText_agrees h
  refine ⟨fun list hsmall => ?_, fun error hsmall herror => ?_, fun list hlarge =>
    ⟨(ofText_eq_ok_of_le h hlarge).2, fun hdepth => ?_⟩⟩
  · obtain hsame | ⟨p, hdeep⟩ := hagrees
    · exact hsame ▸ hsmall
    · rw [hsmall] at hdeep
      cases hdeep
  · obtain hsame | ⟨p, hdeep⟩ := hagrees
    · exact hsame ▸ hsmall
    · rw [hsmall] at hdeep
      exact absurd (Except.error.inj hdeep) (herror p small)
  · obtain hsame | hdeep := hagrees
    · have hle := (ofText_eq_ok_of_le h hlarge).1 (hsame.trans hlarge)
      exact absurd hle (Nat.not_le_of_gt hdepth)
    · exact hdeep

theorem ofText_limit_siblings : 1 ≤ 2 ∧
    ofText ":is(a):not(b)" 1 =
      .ok [⟨[.anyOf [⟨[.tag "a"], []⟩], .noneOf [⟨[.tag "b"], []⟩]], []⟩] ∧
    ∃ p, ofText ":is(a):not(:is(b))" 1 = .error (.malformed p (.nestedTooDeep 1)) := by
  have hflat : ofText ":is(a):not(b)" 2 =
      .ok [⟨[.anyOf [⟨[.tag "a"], []⟩], .noneOf [⟨[.tag "b"], []⟩]], []⟩] := by
    with_unfolding_all rfl
  have hdeep : ofText ":is(a):not(:is(b))" 2 = .ok [⟨[.anyOf [⟨[.tag "a"], []⟩],
      .noneOf [⟨[.anyOf [⟨[.tag "b"], []⟩]], []⟩]], []⟩] := by with_unfolding_all rfl
  have h : 1 ≤ 2 := by decide
  exact ⟨h, ((ofText_limit h).2.2 _ hflat).1 (by decide),
    ((ofText_limit h).2.2 _ hdeep).2 (by decide)⟩

end CssQuery.SelectorList
