import CssQuery.Proofs.Query.Traversal

namespace CssQuery

variable {α β : Type}

-- What a tree tells of the positions of its elements, be it right or wrong.
abbrev Told := Node → Option SiblingPosition

-- The same tree, but for the positions that it tells.
def Tree.telling (tree : Tree) (told : Told) : Tree := { tree with elementIndex := told }

def Scene.telling (scene : Scene) (told : Told) : Scene :=
  { scene with tree := scene.tree.telling told }

-- A matching that comes to the same whatever positions a tree tells and whatever positions
-- are known, and that adds none to those.
def Heedless (matching : Told → Matching α) : Prop := ∃ a, ∀ told, matching told = pure a

namespace Heedless

variable {matching : Told → Matching α} {next : Told → α → Matching β}

theorem pure (a : α) : Heedless fun _ => (Pure.pure a : Matching α) := ⟨a, fun _ => rfl⟩

theorem bind (hm : Heedless matching) (hn : ∀ a, Heedless fun told => next told a) :
    Heedless fun told => matching told >>= next told := by
  obtain ⟨a, ha⟩ := hm
  obtain ⟨b, hb⟩ := hn a
  refine ⟨b, fun told => ?_⟩
  simp only [ha, pure_bind, hb]

theorem ret (f : α → β) (hm : Heedless matching) :
    Heedless fun told => do return f (← matching told) :=
  hm.bind fun a => .pure (f a)

theorem run_eq (hm : Heedless matching) (told other : Told) (known : Positions) :
    matching told known = ((matching other).alone, known) := by
  obtain ⟨a, ha⟩ := hm
  rw [ha, ha]
  rfl

theorem alone_eq (hm : Heedless matching) (told other : Told) :
    (matching told).alone = (matching other).alone := by
  obtain ⟨a, ha⟩ := hm
  rw [ha, ha]

end Heedless

-- A search is heedless if each attempt is.
theorem search_heedless {attempt : Told → Node → Matching Outcome}
    (ha : ∀ node, Heedless fun told => attempt told node) (combinator : Combinator)
    (candidates : List Node) :
    Heedless fun told => search combinator (attempt told) candidates := by
  induction candidates with
  | nil => exact .pure combinator.exhausted
  | cons candidate more ih =>
      refine (ha candidate).bind fun outcome => ?_
      cases combinator.settle? outcome with
      | some final => exact .pure final
      | none => exact ih

theorem keepHolding_heedless {holds : Told → Node → Matching Bool}
    (hh : ∀ node, Heedless fun told => holds told node) (limit : Option Nat)
    (nodes : List Node) : Heedless fun told => keepHolding (holds told) limit nodes := by
  induction nodes generalizing limit with
  | nil =>
      simp only [keepHolding_nil]
      exact .pure []
  | cons node more ih =>
      by_cases hl : limit = some 0
      · subst hl
        exact .pure []
      · simp only [keepHolding_cons hl]
        refine (hh node).bind fun kept => ?_
        cases kept with
        | false => exact ih limit
        | true => exact (ih (limit.map (· - 1))).ret (node :: ·)

namespace Scene

variable (scene : Scene)

-- A keyword that is not about the place of an element asks for no position.
theorem keywordHolds_heedless {keyword : Keyword} (hk : keyword.isStructural = false)
    (node : Node) : Heedless fun told => (scene.telling told).keywordHolds keyword node := by
  refine ⟨(scene.keywordHolds keyword node).alone, fun told => ?_⟩
  cases keyword with
  | firstChild | lastChild | onlyChild | firstOfType | lastOfType | onlyOfType =>
      simp [Keyword.isStructural] at hk
  | _ => rfl

theorem proceed_heedless {passes : Told → Matching Bool} {next : Told → Matching Outcome}
    (hp : Heedless passes) (hn : Heedless next) (node : Node) :
    Heedless fun told => (scene.telling told).proceed node (passes told) (next told) := by
  have hproceed : (fun told => (scene.telling told).proceed node (passes told) (next told)) =
      fun told => scene.proceed node (passes told) (next told) := rfl
  rw [hproceed]
  unfold proceed
  cases scene.tree.isElement node with
  | false => exact .pure Outcome.retry
  | true =>
      refine hp.bind fun passed => ?_
      cases passed with
      | false => exact .pure Outcome.retry
      | true => exact hn

end Scene

section Chains

variable (scene : Scene)

mutual

theorem Test.holds_heedless (node : Node) : (test : Test) → test.needsPositions = false →
    Heedless fun told => test.holds (scene.telling told) node
  | .never, _ => .pure false
  | .hasId id, _ => ⟨scene.tree.id node == some id, fun _ => rfl⟩
  | .localName name, _ =>
      ⟨(scene.tree.localName node).any (scene.namesAgree · name), fun _ => rfl⟩
  | .hasClass name, _ => ⟨scene.tree.hasClass node name, fun _ => rfl⟩
  | .hasAttribute name test letterCase, _ =>
      ⟨(scene.attr node name).any (test.holds letterCase), fun _ => rfl⟩
  | .keyword keyword, hn => scene.keywordHolds_heedless hn node
  | .nthChild .., hn | .nthOfType .., hn => by simp [Test.needsPositions] at hn
  | .noneOf chains, hn => (anyHolds_heedless node chains hn).ret (!·)
  | .anyOf chains, hn => anyHolds_heedless node chains hn

theorem allHold_heedless (node : Node) : (tests : List Test) → testsNeedPositions tests = false →
    Heedless fun told => allHold (scene.telling told) node tests
  | [], _ => .pure true
  | test :: more, hn => by
      obtain ⟨htest, hmore⟩ := Bool.or_eq_false_iff.1 hn
      refine (Test.holds_heedless node test htest).bind fun holds => ?_
      cases holds with
      | false => exact .pure false
      | true => exact allHold_heedless node more hmore

theorem Chain.attempt_heedless (node : Node) : (chain : Chain) → chain.needsPositions = false →
    Heedless fun told => chain.attempt (scene.telling told) node
  | .last tests, hn => scene.proceed_heedless (allHold_heedless node tests hn)
      (.pure Outcome.found) node
  | .link tests combinator outer, hn => by
      obtain ⟨htests, houter⟩ := Bool.or_eq_false_iff.1 hn
      have hsearch := search_heedless (fun candidate =>
        Chain.attempt_heedless candidate outer houter) combinator
        (scene.tree.reached combinator node)
      exact scene.proceed_heedless (allHold_heedless node tests htests) hsearch node

theorem anyHolds_heedless (node : Node) : (chains : List Chain) →
    chainsNeedPositions chains = false →
    Heedless fun told => anyHolds (scene.telling told) node chains
  | [], _ => .pure false
  | chain :: more, hn => by
      obtain ⟨hchain, hmore⟩ := Bool.or_eq_false_iff.1 hn
      refine (Chain.attempt_heedless node chain hchain).bind fun outcome => ?_
      cases outcome == .found with
      | false => exact anyHolds_heedless node more hmore
      | true => exact .pure true

end

end Chains

namespace Query

variable {tree other : Tree}

-- The flag of a query is not off by mistake. Where it is off, trees that differ in what they
-- tell of positions give the same answers, and no position is looked up or found on the way.
theorem answers_of_untold (query : Query) (hq : query.needsPositions = false)
    (hother : other = tree.telling other.elementIndex) :
    (∀ node, query.accepts other node = query.accepts tree node) ∧
    (∀ roots mode, query.select other roots mode = query.select tree roots mode) ∧
    (∀ root count, query.take other root count = query.take tree root count) ∧
    ∀ node known, anyHolds (query.scene other) node query.chains known =
      (query.holdsAt tree node, known) := by
  generalize other.elementIndex = told at hother
  subst hother
  have hholds := fun node => anyHolds_heedless (query.scene tree) node query.chains hq
  have hkeep := fun limit nodes => keepHolding_heedless hholds limit nodes
  have hshape : tree.SameShape (tree.telling told) := ⟨rfl, rfl, rfl, rfl, rfl, rfl⟩
  have hcollect : ∀ roots limit,
      query.collect (tree.telling told) roots limit = query.collect tree roots limit := by
    intro roots limit
    rw [collect, candidates_of_sameShape hshape rfl]
    exact (hkeep limit _).alone_eq told tree.elementIndex
  refine ⟨fun node => ?_, fun roots mode => ?_, fun root count => ?_, fun node known => ?_⟩
  · exact congrArg query.checked ((hholds node).alone_eq told tree.elementIndex)
  · exact congrArg query.checked (hcollect roots _)
  · exact congrArg query.checked (hcollect [root] _)
  · exact (hholds node).run_eq told tree.elementIndex known

def plainParagraph : Compound := [.tag "p", .noneOf [⟨[.hasClass "x"], []⟩]]

def unmarked : Query :=
  ofSelectors "div > p:not(.x)" [⟨plainParagraph, [⟨.child, [.tag "div"]⟩]⟩] {}

-- A tree that calls each element the seventh of three.
def misled : Tree := division.toTree.telling fun _ => some ⟨7, 3⟩

theorem answers_of_untold_misled :
    unmarked.needsPositions = false ∧ misled = division.toTree.telling misled.elementIndex ∧
      unmarked.select misled [1] .all = .ok [2] ∧ unmarked.accepts misled 1 = .ok false := by
  have hsort : sortTests (lowerSimples false plainParagraph) = lowerSimples false plainParagraph :=
    sortTests_of_pairwise (by decide)
  have hq : unmarked.needsPositions = false := by
    simp only [unmarked, ofSelectors, lowerList, lowerComplex, hsort]
    with_unfolding_all rfl
  have hmisled : misled = division.toTree.telling misled.elementIndex := rfl
  have hselect : unmarked.select division.toTree [1] .all = .ok [2] := by
    simp only [unmarked, ofSelectors, lowerList, lowerComplex, hsort]
    with_unfolding_all rfl
  have haccepts : unmarked.accepts division.toTree 1 = .ok false := by
    simp only [unmarked, ofSelectors, lowerList, lowerComplex, hsort]
    with_unfolding_all rfl
  obtain ⟨haccepts', hselect', -⟩ := answers_of_untold unmarked hq hmisled
  exact ⟨hq, hmisled, (hselect' [1] .all).trans hselect, (haccepts' 1).trans haccepts⟩

end Query

end CssQuery
