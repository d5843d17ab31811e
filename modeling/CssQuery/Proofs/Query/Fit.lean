import CssQuery.Proofs.Query.Outcome
import CssQuery.Proofs.Query.Positions

namespace CssQuery

-- The element siblings on one side of a node, nearest first.
def Tree.aside (tree : Tree) : Edge → Node → List Node
  | .first, node => tree.precedingElements node
  | .last, node => tree.followingElements node

mutual

-- What the matching of a test comes to if all elements are tried that a combinator
-- leads to, and no position is taken from an earlier count.
def Test.fits (scene : Scene) (node : Node) : Test → Bool
  | .never => false
  | .hasId id => scene.tree.id node == some id
  | .localName name => (scene.tree.localName node).any (scene.namesAgree · name)
  | .hasClass name => scene.tree.hasClass node name
  | .hasAttribute name test letterCase => (scene.attr node name).any (test.holds letterCase)
  | .keyword k => (scene.keywordHolds k node).alone
  | .nthChild edge formula none => formula.picks (scene.indexAt edge .all node)
  | .nthChild edge formula (some chains) =>
      anyFit scene node chains &&
        formula.picks ((scene.tree.aside edge node).countP (fun x => anyFit scene x chains) + 1)
  | .nthOfType edge formula => formula.picks (scene.indexAt edge .sameType node)
  | .noneOf chains => !anyFit scene node chains
  | .anyOf chains => anyFit scene node chains

def allFit (scene : Scene) (node : Node) : List Test → Bool
  | [] => true
  | test :: more => test.fits scene node && allFit scene node more

def Chain.fits (scene : Scene) (node : Node) : Chain → Bool
  | .last tests => scene.tree.isElement node && allFit scene node tests
  | .link tests combinator outer =>
      scene.tree.isElement node && allFit scene node tests &&
        (scene.tree.reached combinator node).any (fun x => outer.fits scene x)

def anyFit (scene : Scene) (node : Node) : List Chain → Bool
  | [] => false
  | chain :: more => chain.fits scene node || anyFit scene node more

end

namespace Scene

variable {scene : Scene}

theorem keywordHolds_gives (h : scene.tree.Consistent) (keyword : Keyword) (node : Node) :
    scene.Gives (scene.keywordHolds keyword node) (scene.keywordHolds keyword node).alone := by
  have hpure : ∀ answer : Bool, scene.Gives (pure answer) (pure answer : Matching Bool).alone :=
    fun answer => (Gives.pure answer).alone
  cases keyword with
  | firstOfType => exact ((indexFrom_gives h .first .sameType node).ret (· == 1)).alone
  | lastOfType => exact ((indexFrom_gives h .last .sameType node).ret (· == 1)).alone
  | onlyOfType => exact ((position_gives h .sameType node).ret (·.count == 1)).alone
  | _ => exact hpure _

theorem countHolding_gives {holds : Node → Matching Bool} {fits : Node → Bool}
    (hh : ∀ node, scene.Gives (holds node) (fits node)) (nodes : List Node) :
    scene.Gives (countHolding holds nodes) (nodes.countP fits) := by
  induction nodes with
  | nil => exact .pure 0
  | cons node more ih =>
      rw [List.countP_cons, Nat.add_comm]
      cases hf : fits node with
      | true => exact (hf ▸ hh node).bind (ih.ret (1 + ·))
      | false => exact (hf ▸ hh node).bind (ih.ret (0 + ·))

-- A search finds out about the candidates before the one that settles it.
theorem search_gives {combinator : Combinator} {attempt : Node → Matching Outcome}
    {good : Node → Bool}
    (ha : ∀ node, ∃ outcome, scene.Gives (attempt node) outcome ∧
      outcome.Tells scene.tree good node) (candidates : List Node) :
    (∃ before node after outcome final, candidates = before ++ node :: after ∧
      (∀ x ∈ before, good x = false) ∧ outcome.Tells scene.tree good node ∧
      combinator.settle? outcome = some final ∧
      scene.Gives (search combinator attempt candidates) final) ∨
    ((∀ x ∈ candidates, good x = false ∧ ∃ outcome, combinator.settle? outcome = none) ∧
      scene.Gives (search combinator attempt candidates) combinator.exhausted) := by
  induction candidates with
  | nil => exact .inr ⟨by simp, .pure _⟩
  | cons node more ih =>
      obtain ⟨outcome, hg, ht⟩ := ha node
      cases hs : combinator.settle? outcome with
      | some final =>
          refine .inl ⟨[], node, more, outcome, final, rfl, by simp, ht, hs, hg.bind ?_⟩
          rw [hs]
          exact .pure final
      | none =>
          have hne : outcome ≠ .found := by
            rintro rfl
            cases combinator <;> simp [Combinator.settle?] at hs
          have hnot : good node = false := ht.not_good hne
          have hstep : ∀ {o}, scene.Gives (search combinator attempt more) o →
              scene.Gives (search combinator attempt (node :: more)) o := by
            intro o ho
            refine hg.bind ?_
            rw [hs]
            exact ho
          rcases ih with ⟨before, y, after, o, final, hl, hb, hy, hf, ho⟩ | ⟨hb, ho⟩
          · refine .inl ⟨node :: before, y, after, o, final, by rw [hl]; rfl, ?_, hy, hf, hstep ho⟩
            exact List.forall_mem_cons.2 ⟨hnot, hb⟩
          · exact .inr ⟨List.forall_mem_cons.2 ⟨⟨hnot, outcome, hs⟩, hb⟩, hstep ho⟩

theorem search_tells (h : scene.tree.Consistent) {attempt : Node → Matching Outcome}
    {good : Node → Bool}
    (ha : ∀ node, ∃ outcome, scene.Gives (attempt node) outcome ∧
      outcome.Tells scene.tree good node) (combinator : Combinator) (node : Node) :
    ∃ outcome,
      scene.Gives (search combinator attempt (scene.tree.reached combinator node)) outcome ∧
      outcome.Tells scene.tree (scene.tree.leadsTo good combinator) node := by
  rcases search_gives ha (scene.tree.reached combinator node) with
    ⟨before, y, after, outcome, final, hl, hb, ht, hs, hg⟩ | ⟨hb, hg⟩
  · refine ⟨final, hg, ?_⟩
    cases combinator with
    | child =>
        have hy : y ∈ scene.tree.reached .child node := by simp [hl]
        exact h.child_tells (by simpa [Tree.reached] using hy) ht hs
    | descendant => exact h.descendant_tells hl hb ht hs
    | nextSibling =>
        have hy : y ∈ scene.tree.reached .nextSibling node := by simp [hl]
        have hf : outcome = final := by cases outcome <;> exact Option.some.inj hs
        exact hf ▸ h.nextSibling_tells (Tree.mem_reached_nextSibling hy) ht
    | subsequentSibling => exact h.subsequentSibling_tells hl hb ht hs
  · refine ⟨_, hg, ?_⟩
    have hnone : ∀ x ∈ scene.tree.reached combinator node, good x = false := by
      intro x hx
      exact (hb x hx).1
    cases combinator with
    | child =>
        cases hp : scene.tree.parentElement node with
        | none => exact h.child_exhausted hp
        | some p =>
            -- the one candidate settles the search
            have hm : p ∈ scene.tree.reached .child node := by simp [Tree.reached, hp]
            obtain ⟨outcome, hs⟩ := (hb p hm).2
            cases outcome <;> simp [Combinator.settle?] at hs
    | descendant => exact h.descendant_exhausted hnone
    | nextSibling =>
        cases hp : scene.tree.prevElement node with
        | none => exact Tree.Consistent.nextSibling_exhausted hp
        | some p =>
            have hm : p ∈ scene.tree.reached .nextSibling node := by simp [Tree.reached, hp]
            obtain ⟨outcome, hs⟩ := (hb p hm).2
            cases outcome <;> simp [Combinator.settle?] at hs
    | subsequentSibling => exact h.subsequentSibling_exhausted hnone

theorem proceed_gives {node : Node} {passes : Matching Bool} {next : Matching Outcome}
    {passed : Bool} {outcome : Outcome} (hp : scene.Gives passes passed)
    (hn : scene.Gives next outcome) :
    scene.Gives (scene.proceed node passes next)
      (if scene.tree.isElement node && passed then outcome else .retry) := by
  unfold proceed
  cases he : scene.tree.isElement node with
  | false => exact .pure _
  | true =>
      cases passed with
      | false => exact hp.bind (.pure _)
      | true => exact hp.bind hn

end Scene

-- What is promised about a property holds of one that demands more.
theorem Outcome.Tells.weaken {tree : Tree} {good better : Node → Bool} {node : Node}
    {outcome : Outcome} (ht : outcome.Tells tree good node)
    (hb : ∀ x, good x = false → better x = false) (hg : good node = true → better node = true) :
    outcome.Tells tree better node := by
  cases outcome with
  | found => exact hg ht
  | retry => exact hb node ht
  | retryAbove => exact ⟨hb node ht.1, fun x hx => hb x (ht.2 x hx)⟩
  | hopeless => exact fun x hx => hb x (ht x hx)

section Exact

variable {scene : Scene}

mutual

theorem Test.holds_gives (h : scene.tree.Consistent) (node : Node) :
    (test : Test) → scene.Gives (test.holds scene node) (test.fits scene node)
  | .never | .hasId _ | .localName _ | .hasClass _ | .hasAttribute .. => .pure _
  | .keyword k => Scene.keywordHolds_gives h k node
  | .nthChild edge formula none => (Scene.indexFrom_gives h edge .all node).ret formula.picks
  | .nthChild edge formula (some chains) => by
      have hn := anyHolds_gives h node chains
      simp only [Test.holds, Test.fits]
      cases hf : anyFit scene node chains with
      | false => exact (hf ▸ hn).bind (.pure _)
      | true =>
          have hx := fun x => anyHolds_gives h x chains
          refine (hf ▸ hn).bind ((Scene.countHolding_gives hx _).bind ?_)
          cases edge <;> exact .pure _
  | .nthOfType edge formula =>
      (Scene.indexFrom_gives h edge .sameType node).ret formula.picks
  | .noneOf chains => (anyHolds_gives h node chains).ret (!·)
  | .anyOf chains => anyHolds_gives h node chains

theorem allHold_gives (h : scene.tree.Consistent) (node : Node) :
    (tests : List Test) → scene.Gives (allHold scene node tests) (allFit scene node tests)
  | [] => .pure _
  | test :: more => by
      have ht := Test.holds_gives h node test
      rw [allHold, allFit]
      cases hf : test.fits scene node with
      | false => exact (hf ▸ ht).bind (.pure _)
      | true => exact (hf ▸ ht).bind (allHold_gives h node more)

-- The search along a chain ends with an outcome that keeps its promise, so that no
-- candidate is passed over that would have made the chain.
theorem Chain.attempt_tells (h : scene.tree.Consistent) (node : Node) :
    (chain : Chain) → ∃ outcome, scene.Gives (chain.attempt scene node) outcome ∧
      outcome.Tells scene.tree (chain.fits scene ·) node
  | .last tests => by
      refine ⟨_, Scene.proceed_gives (allHold_gives h node tests) (.pure _), ?_⟩
      cases hf : scene.tree.isElement node && allFit scene node tests with
      | false => simpa [Outcome.Tells, Chain.fits] using hf
      | true => simpa [Outcome.Tells, Chain.fits] using hf
  | .link tests combinator outer => by
      obtain ⟨outcome, hg, ht⟩ := Scene.search_tells h
        (fun x => Chain.attempt_tells h x outer) combinator node
      refine ⟨_, Scene.proceed_gives (allHold_gives h node tests) hg, ?_⟩
      have hfits : ∀ x, (Chain.link tests combinator outer).fits scene x =
          (scene.tree.isElement x && allFit scene x tests &&
            scene.tree.leadsTo (outer.fits scene ·) combinator x) := by
        intro x
        rw [Chain.fits, Tree.leadsTo]
      cases hf : scene.tree.isElement node && allFit scene node tests with
      | false => simp [Outcome.Tells, hfits, hf]
      | true =>
          apply ht.weaken
          · intro x hx
            simp [hfits, hx]
          · intro hx
            simp [hfits, hf, hx]

theorem anyHolds_gives (h : scene.tree.Consistent) (node : Node) :
    (chains : List Chain) → scene.Gives (anyHolds scene node chains) (anyFit scene node chains)
  | [] => .pure _
  | chain :: more => by
      obtain ⟨outcome, hg, ht⟩ := Chain.attempt_tells h node chain
      rw [anyHolds, anyFit]
      refine hg.bind ?_
      cases hf : chain.fits scene node with
      | true =>
          obtain rfl := ht.found_iff.2 hf
          exact .pure _
      | false =>
          have hne : outcome ≠ .found := by
            intro ho
            simp [ht.found_iff.1 ho] at hf
          cases outcome with
          | found => exact absurd rfl hne
          | _ => exact anyHolds_gives h node more

end

end Exact

end CssQuery
