import CssQuery.Dom
import CssQuery.Proofs.Lists
import CssQuery.Proofs.Query.Places

namespace CssQuery

mutual

-- The tests that a test comes down to, which look at an element and hold no chains.
def Test.leaves : Test → List Test
  | .nthChild _ _ (some chains) | .noneOf chains | .anyOf chains => leavesOfChains chains
  | test => [test]

def leavesOfTests : List Test → List Test
  | [] => []
  | test :: more => test.leaves ++ leavesOfTests more

def Chain.leaves : Chain → List Test
  | .last tests => leavesOfTests tests
  | .link tests _ outer => leavesOfTests tests ++ outer.leaves

def leavesOfChains : List Chain → List Test
  | [] => []
  | chain :: more => chain.leaves ++ leavesOfChains more

end

-- Two scenes in which nodes stand for each other, and with an element its parent element
-- and its sibling elements.
structure Scene.Like (s t : Scene) (same : Node → Node → Prop) : Prop where
  isElement : ∀ {a b}, same a b → s.tree.isElement a = t.tree.isElement b
  parent : ∀ {a b}, same a b → s.tree.isElement a = true →
    Option.Rel same (s.tree.parentElement a) (t.tree.parentElement b)
  aside : ∀ {a b}, same a b → s.tree.isElement a = true → ∀ edge,
    List.Forall₂ same (s.tree.aside edge a) (t.tree.aside edge b)

-- A test of an element that asks no chains.
def Test.isPlain : Test → Bool
  | .nthChild _ _ (some _) | .noneOf _ | .anyOf _ => false
  | _ => true

-- A test that does not tell apart the elements that stand for each other, if it is plain.
def Test.Blind (s t : Scene) (same : Node → Node → Prop) (test : Test) : Prop :=
  test.isPlain = true → ∀ a b, same a b → s.tree.isElement a = true → test.fits s a = test.fits t b

-- With the same links, each node stands for itself.
theorem Scene.Like.of_eq {s t : Scene} (helement : s.tree.isElement = t.tree.isElement)
    (hparent : s.tree.parentElement = t.tree.parentElement)
    (haside : s.tree.aside = t.tree.aside) : s.Like t Eq where
  isElement hab := by rw [hab, helement]
  parent {a b} hab _ := by
    rw [hab, hparent]
    cases t.tree.parentElement b with
    | none => exact .none
    | some p => exact .some rfl
  aside {a b} hab _ edge := by
    rw [hab, haside]
    exact List.forall₂_refl _

namespace Scene.Like

variable {s t : Scene} {same : Node → Node → Prop} {a b : Node} (h : s.Like t same)
  (hs : s.tree.Consistent) (ht : t.tree.Consistent)

include h

include hs ht

-- The ancestors stand for each other as the parents do.
theorem ancestorElements (hab : same a b) (ha : s.tree.isElement a = true) :
    List.Forall₂ same (s.tree.ancestorElements a) (t.tree.ancestorElements b) := by
  induction a using hs.parentElements.wellFounded.induction generalizing b with
  | _ a ih =>
      have hr := h.parent hab ha
      cases hp : s.tree.parentElement a with
      | none =>
          have hq : t.tree.parentElement b = none := eq_none_of_rel_none (hp ▸ hr)
          rw [Tree.ancestorElements, Tree.ancestorElements, walk_eq_nil hp, walk_eq_nil hq]
          exact .nil
      | some p =>
          obtain ⟨q, hq, hpq⟩ := exists_of_rel_some (hp ▸ hr)
          have hup := ih p hp hpq (Tree.parentElement_eq_some.1 hp).2
          rw [Tree.ancestorElements, Tree.ancestorElements, hs.parentElements.walk_eq_cons hp,
            ht.parentElements.walk_eq_cons hq]
          exact .cons hpq hup

theorem reached (hab : same a b) (ha : s.tree.isElement a = true) (combinator : Combinator) :
    List.Forall₂ same (s.tree.reached combinator a) (t.tree.reached combinator b) := by
  cases combinator with
  | child => exact forall₂_toList (h.parent hab ha)
  | descendant => exact h.ancestorElements hs ht hab ha
  | nextSibling => exact forall₂_toList (rel_head?_of_forall₂ (h.aside hab ha .first))
  | subsequentSibling => exact h.aside hab ha .first

end Scene.Like

section Congr

variable {s t : Scene} {same : Node → Node → Prop}

mutual

theorem Test.fits_congr (h : s.Like t same) (hs : s.tree.Consistent) (ht : t.tree.Consistent)
    {a b : Node} (hab : same a b) (ha : s.tree.isElement a = true) : (test : Test) →
    (∀ leaf ∈ test.leaves, leaf.Blind s t same) → test.fits s a = test.fits t b
  | .never, _ => rfl
  | .hasId id, hb => hb _ (.head _) rfl a b hab ha
  | .localName name, hb => hb _ (.head _) rfl a b hab ha
  | .hasClass name, hb => hb _ (.head _) rfl a b hab ha
  | .hasAttribute name test letterCase, hb => hb _ (.head _) rfl a b hab ha
  | .keyword k, hb => hb _ (.head _) rfl a b hab ha
  | .nthChild edge formula none, hb => hb _ (.head _) rfl a b hab ha
  | .nthOfType edge formula, hb => hb _ (.head _) rfl a b hab ha
  | .nthChild edge formula (some chains), hb => by
      have hcount : (s.tree.aside edge a).countP (fun x => anyFit s x chains) =
          (t.tree.aside edge b).countP (fun x => anyFit t x chains) := by
        apply countP_eq_of_forall₂ (h.aside hab ha edge)
        intro x _ y hxy
        exact anyFit_congr h hs ht hxy chains hb
      rw [Test.fits, Test.fits, anyFit_congr h hs ht hab chains hb, hcount]
  | .noneOf chains, hb => congrArg (!·) (anyFit_congr h hs ht hab chains hb)
  | .anyOf chains, hb => anyFit_congr h hs ht hab chains hb

theorem allFit_congr (h : s.Like t same) (hs : s.tree.Consistent) (ht : t.tree.Consistent)
    {a b : Node} (hab : same a b) (ha : s.tree.isElement a = true) : (tests : List Test) →
    (∀ leaf ∈ leavesOfTests tests, leaf.Blind s t same) → allFit s a tests = allFit t b tests
  | [], _ => rfl
  | test :: more, hb => by
      obtain ⟨htest, hmore⟩ := List.forall_mem_append.1 hb
      rw [allFit, allFit, test.fits_congr h hs ht hab ha htest,
        allFit_congr h hs ht hab ha more hmore]

theorem Chain.fits_congr (h : s.Like t same) (hs : s.tree.Consistent) (ht : t.tree.Consistent)
    {a b : Node} (hab : same a b) : (chain : Chain) →
    (∀ leaf ∈ chain.leaves, leaf.Blind s t same) → chain.fits s a = chain.fits t b
  | .last tests, hb => by
      rw [Chain.fits, Chain.fits, ← h.isElement hab]
      cases ha : s.tree.isElement a with
      | false => rfl
      | true => rw [allFit_congr h hs ht hab ha tests hb]
  | .link tests combinator outer, hb => by
      obtain ⟨htests, houter⟩ := List.forall_mem_append.1 hb
      rw [Chain.fits, Chain.fits, ← h.isElement hab]
      cases ha : s.tree.isElement a with
      | false => rfl
      | true =>
          have hreached : (s.tree.reached combinator a).any (fun x => outer.fits s x) =
              (t.tree.reached combinator b).any (fun x => outer.fits t x) := by
            apply any_eq_of_forall₂ (h.reached hs ht hab ha combinator)
            intro x _ y hxy
            exact outer.fits_congr h hs ht hxy houter
          rw [allFit_congr h hs ht hab ha tests htests, hreached]

-- Whatever chains ask for, they ask it by their leaves.
theorem anyFit_congr (h : s.Like t same) (hs : s.tree.Consistent) (ht : t.tree.Consistent)
    {a b : Node} (hab : same a b) : (chains : List Chain) →
    (∀ leaf ∈ leavesOfChains chains, leaf.Blind s t same) → anyFit s a chains = anyFit t b chains
  | [], _ => rfl
  | chain :: more, hb => by
      obtain ⟨hchain, hmore⟩ := List.forall_mem_append.1 hb
      rw [anyFit, anyFit, chain.fits_congr h hs ht hab hchain,
        anyFit_congr h hs ht hab more hmore]

end

end Congr

-- Two elements that show the same to whoever looks at each of them alone, and asks for
-- attributes of certain names only. Their types may differ in case where it is ignored.
structure Scene.SameLooks (s t : Scene) (asked : String → Prop) (a b : Node) : Prop where
  localName : (s.tree.localName a).map (foldName s.exactNames) =
    (t.tree.localName b).map (foldName s.exactNames)
  id : s.tree.id a = t.tree.id b
  hasClass : ∀ name, s.tree.hasClass a name = t.tree.hasClass b name
  attr : ∀ name, asked name → s.attr a name = t.attr b name
  isRoot : s.tree.isRoot a = t.tree.isRoot b
  isEmpty : s.tree.isEmpty a = t.tree.isEmpty b

theorem Scene.SameLooks.fold_localName {s t : Scene} {asked : String → Prop} {a b : Node}
    (h : s.SameLooks t asked a b) :
    (s.tree.localName a).map Text.fold = (t.tree.localName b).map Text.fold := by
  have hl := h.localName
  cases hx : s.exactNames with
  | true =>
      have hself : ∀ type : Option String, type.map (foldName true) = type :=
        fun _ => Option.map_id'
      rw [hx, hself, hself] at hl
      rw [hl]
  | false =>
      rw [hx] at hl
      exact hl

theorem Scene.namesAgree_eq_beq (scene : Scene) (type expected : String) :
    scene.namesAgree type expected =
      (foldName scene.exactNames type == foldName scene.exactNames expected) := by
  rw [namesAgree]
  cases scene.exactNames <;> rfl

-- Scenes in which the elements that stand for each other look the same. No tree tells
-- positions itself, and the attributes that keywords ask for may be asked for.
structure Scene.Mirrors (s t : Scene) (same : Node → Node → Prop) (asked : String → Prop) : Prop
    extends s.Like t same where
  exactNames : s.exactNames = t.exactNames
  looks : ∀ {a b}, same a b → s.tree.isElement a = true → s.SameLooks t asked a b
  untold : ∀ a b, s.tree.elementIndex a = none ∧ t.tree.elementIndex b = none
  asked_of_folded : ∀ name, Text.fold name = name → asked name

-- Whether a test asks for no attributes but those of certain names.
def Test.AsksOnly (asked : String → Prop) : Test → Prop
  | .hasAttribute name _ _ => asked name
  | _ => True

namespace Scene.Mirrors

variable {s t : Scene} {same : Node → Node → Prop} {asked : String → Prop} {a b : Node}
  (h : s.Mirrors t same asked)

include h

section Looks

variable (hab : same a b) (ha : s.tree.isElement a = true)

include hab ha

theorem typeName_eq : typeName s.tree s.exactNames a = typeName t.tree t.exactNames b := by
  have hname : ∀ type : Option String, foldName s.exactNames (type.getD "") =
      (type.map (foldName s.exactNames)).getD (foldName s.exactNames "") :=
    fun type => (Option.getD_map _ _ type).symm
  rw [typeName, typeName, ← h.exactNames, hname, hname, (h.looks hab ha).localName]

theorem namesAgree_eq (name : String) :
    (s.tree.localName a).any (s.namesAgree · name) =
      (t.tree.localName b).any (t.namesAgree · name) := by
  have hagree : ∀ type : Option String, type.any (s.namesAgree · name) =
      (type.map (foldName s.exactNames)).any (· == foldName s.exactNames name) := by
    intro type
    simp only [namesAgree_eq_beq, Option.any_map]
  have hsame : t.namesAgree = s.namesAgree := by
    funext type expected
    rw [namesAgree, namesAgree, h.exactNames]
  rw [hsame, hagree, hagree, (h.looks hab ha).localName]

theorem isOneOf_eq (names : List String) : s.isOneOf names a = t.isOneOf names b := by
  have hfold : ∀ type : Option String, (type.any fun name => names.any (Text.sameFolded name)) =
      (type.map Text.fold).any fun name => names.any (name == Text.fold ·) := by
    intro type
    rw [Option.any_map]
    rfl
  rw [isOneOf, isOneOf, hfold, hfold, (h.looks hab ha).fold_localName]

theorem attr_eq {name : String} (hn : Text.fold name = name) : s.attr a name = t.attr b name :=
  (h.looks hab ha).attr name (h.asked_of_folded name hn)

theorem hasAttr_eq {name : String} (hn : Text.fold name = name) :
    s.hasAttr a name = t.hasAttr b name := by
  rw [hasAttr, hasAttr, h.attr_eq hab ha hn]

-- As many siblings count for a position on either side.
theorem countP_alike_eq (scope : Scope) (edge : Edge) :
    (s.tree.aside edge a).countP (s.tree.alike s.exactNames scope a) =
      (t.tree.aside edge b).countP (t.tree.alike t.exactNames scope b) := by
  apply countP_eq_of_forall₂ (h.aside hab ha edge)
  intro x hx y hxy
  cases scope with
  | all => rfl
  | sameType =>
      have hxe : s.tree.isElement x = true := by
        cases edge <;> exact (List.mem_filter.1 hx).2
      rw [Tree.alike, Tree.alike, h.typeName_eq hxy hxe, h.typeName_eq hab ha]

theorem prevElement_isNone_eq :
    (s.tree.prevElement a).isNone = (t.tree.prevElement b).isNone :=
  isNone_eq_of_rel (rel_head?_of_forall₂ (h.aside hab ha .first))

theorem nextElement_isNone_eq :
    (s.tree.nextElement a).isNone = (t.tree.nextElement b).isNone :=
  isNone_eq_of_rel (rel_head?_of_forall₂ (h.aside hab ha .last))

section Positions

variable (hs : s.tree.Consistent) (ht : t.tree.Consistent)

include hs ht

theorem place_eq (scope : Scope) : s.place scope a = t.place scope b := by
  have hsa : toldPosition? s.tree scope a = none := by
    cases scope with
    | all => exact (h.untold a b).1
    | sameType => rfl
  have htb : toldPosition? t.tree scope b = none := by
    cases scope with
    | all => exact (h.untold a b).2
    | sameType => rfl
  have hb : t.tree.isElement b = true := (h.isElement hab).symm.trans ha
  have hfirst := h.countP_alike_eq hab ha scope .first
  have hlast := h.countP_alike_eq hab ha scope .last
  simp only [Tree.aside] at hfirst hlast
  rw [place_of_untold hsa, place_of_untold htb, hs.countedPlace_eq ha, ht.countedPlace_eq hb,
    hfirst, hlast]

theorem indexAt_eq (edge : Edge) (scope : Scope) :
    s.indexAt edge scope a = t.indexAt edge scope b := by
  simp only [indexAt, h.place_eq hab ha hs ht scope]

theorem keywordHolds_eq (keyword : Keyword) :
    (s.keywordHolds keyword a).alone = (t.keywordHolds keyword b).alone := by
  have hindex : ∀ edge, (do return (← s.indexFrom edge .sameType a) == 1).alone =
      (do return (← t.indexFrom edge .sameType b) == 1).alone := by
    intro edge
    rw [((indexFrom_gives hs edge .sameType a).ret (· == 1)).alone_eq,
      ((indexFrom_gives ht edge .sameType b).ret (· == 1)).alone_eq, h.indexAt_eq hab ha hs ht]
  have htype := h.isOneOf_eq hab ha
  have hprev := h.prevElement_isNone_eq hab ha
  have hnext := h.nextElement_isNone_eq hab ha
  cases keyword with
  | root => exact (h.looks hab ha).isRoot
  | empty => exact (h.looks hab ha).isEmpty
  | firstChild => exact hprev
  | lastChild => exact hnext
  | onlyChild => exact congrArg₂ (· && ·) hprev hnext
  | firstOfType => exact hindex .first
  | lastOfType => exact hindex .last
  | onlyOfType =>
      have hplace := h.place_eq hab ha hs ht .sameType
      exact ((position_gives hs .sameType a).ret (·.count == 1)).alone_eq.trans
        ((congrArg (·.count == 1) hplace).trans
          ((position_gives ht .sameType b).ret (·.count == 1)).alone_eq.symm)
  | link => exact congrArg₂ (· && ·) (htype _) (h.hasAttr_eq hab ha rfl)
  | checked =>
      have hbox : s.isBox a = t.isBox b := by
        rw [isBox, isBox, htype, h.attr_eq hab ha rfl]
      exact congrArg₂ (· || ·) (congrArg₂ (· && ·) hbox (h.hasAttr_eq hab ha rfl))
        (congrArg₂ (· && ·) (htype _) (h.hasAttr_eq hab ha rfl))
  | disabled => exact congrArg₂ (· && ·) (htype _) (h.hasAttr_eq hab ha rfl)
  | enabled => exact congrArg₂ (· && !·) (htype _) (h.hasAttr_eq hab ha rfl)
  | required => exact congrArg₂ (· && ·) (htype _) (h.hasAttr_eq hab ha rfl)
  | optional => exact congrArg₂ (· && !·) (htype _) (h.hasAttr_eq hab ha rfl)

end Positions

end Looks

section Blind

variable (hs : s.tree.Consistent) (ht : t.tree.Consistent)

include hs ht

-- Elements that look the same are not told apart by what one sees of each alone.
theorem blind {test : Test} (hasks : test.AsksOnly asked) : test.Blind s t same := by
  intro hplain a b hab ha
  have hlooks := h.looks hab ha
  cases test with
  | never => rfl
  | hasId id => exact congrArg (· == some id) hlooks.id
  | localName name => exact h.namesAgree_eq hab ha name
  | hasClass name => exact hlooks.hasClass name
  | hasAttribute name test letterCase =>
      exact congrArg (Option.any (test.holds letterCase)) (hlooks.attr name hasks)
  | keyword keyword => exact h.keywordHolds_eq hab ha hs ht keyword
  | nthOfType edge formula =>
      exact congrArg formula.picks (h.indexAt_eq hab ha hs ht edge .sameType)
  | nthChild edge formula among =>
      cases among with
      | none => exact congrArg formula.picks (h.indexAt_eq hab ha hs ht edge .all)
      | some chains => simp [Test.isPlain] at hplain
  | noneOf chains | anyOf chains => simp [Test.isPlain] at hplain

theorem anyFit_eq (hab : same a b) {chains : List Chain}
    (hasks : ∀ leaf ∈ leavesOfChains chains, leaf.AsksOnly asked) :
    anyFit s a chains = anyFit t b chains := by
  apply anyFit_congr h.toLike hs ht hab
  intro leaf hleaf
  exact h.blind hs ht (hasks leaf hleaf)

end Blind

end Scene.Mirrors

namespace Dom

variable {d e : Dom} {same : Node → Node → Prop} {a b : Node}

-- Documents in which nodes stand for each other, and with each its parent and siblings.
structure Linked (d e : Dom) (same : Node → Node → Prop) : Prop where
  isElement : ∀ a b, same a b → d.isElement a = e.isElement b
  parent : ∀ a b, same a b → Option.Rel same (d.parent a) (e.parent b)
  preceding : ∀ a b, same a b →
    List.Forall₂ same (d.toTree.preceding a) (e.toTree.preceding b)
  following : ∀ a b, same a b →
    List.Forall₂ same (d.toTree.following a) (e.toTree.following b)

theorem Linked.like (h : d.Linked e same) (exactNames : Bool) :
    Scene.Like ⟨d.toTree, exactNames⟩ ⟨e.toTree, exactNames⟩ same where
  isElement hab := h.isElement _ _ hab
  parent hab _ := rel_option_filter (h.parent _ _ hab) h.isElement
  aside hab _ edge := by
    cases edge with
    | first => exact forall₂_filter (h.preceding _ _ hab) h.isElement
    | last => exact forall₂_filter (h.following _ _ hab) h.isElement

theorem Linked.isRoot (h : d.Linked e same) (hab : same a b) :
    d.toTree.isRoot a = e.toTree.isRoot b := by
  have hparent := any_eq_of_rel (h.parent a b hab) h.isElement
  change (d.isElement a && !(d.parent a).any d.isElement) =
    (e.isElement b && !(e.parent b).any e.isElement)
  rw [h.isElement a b hab, hparent]

theorem hasClass_congr (h : d.attr a "class" = e.attr b "class") (name : String) :
    d.hasClass a name = e.hasClass b name := by
  rw [hasClass, hasClass, classes, classes, h]

end Dom

end CssQuery
