import CssQuery.Command
import CssQuery.Proofs.Dom.Sorted
import CssQuery.Proofs.Query.Alike

namespace CssQuery

namespace Dom

-- What an index holds is no part of a description.
theorem describeWithin_buildIndex (dom : Dom) (depth : Nat) :
    dom.buildIndex.describeWithin depth = dom.describeWithin depth := by
  induction depth with
  | zero => rfl
  | succ depth ih =>
      funext node
      rw [describeWithin, describeWithin, ih]
      rfl

theorem describe_buildIndex (dom : Dom) : dom.buildIndex.describe = dom.describe :=
  dom.describeWithin_buildIndex dom.size

end Dom

namespace Query

open Dom

variable {dom : Dom}

-- Below the document a query finds the same, if the document has an index or not.
theorem select_buildIndex (hdom : dom.Built) (query : Query) (mode : SelectMode) :
    query.select dom.buildIndex.toTree [Dom.root] mode =
      query.select dom.toTree [Dom.root] mode := by
  have hchildren : dom.buildIndex.children = dom.children := rfl
  have hbelow : dom.buildIndex.descendants Dom.root = dom.descendants Dom.root :=
    descendantsWithin_congr hchildren dom.size Dom.root
  rw [select_root hdom.buildIndex, select_root hdom, hbelow]
  simp only [holdsAt_buildIndex hdom]
  rfl

-- It finds the same, if it may use an index or not.
theorem select_withIdIndex (hdom : dom.Built) (query : Query) (uses : Bool) (mode : SelectMode) :
    (query.withIdIndex uses).select dom.toTree [Dom.root] mode =
      query.select dom.toTree [Dom.root] mode := by
  rw [select_root hdom, select_root hdom]
  rfl

theorem compile_usesIdIndex (text : String) (options : Options) (uses : Bool) :
    compile text { options with usesIdIndex := uses } =
      (compile text options).map (·.withIdIndex uses) := by
  rw [compile, compile]
  cases SelectorList.ofText text options.maxNesting <;> rfl

end Query

theorem Report.matchLine_sort (style : Style → String → String) (dom : Dom) :
    matchLine style dom.sort = matchLine style dom := by
  funext node
  rw [matchLine, matchLine, Dom.element?_sort]
  cases dom.element? node with
  | none => rfl
  | some element =>
      simp only [Option.map_some, startTag, Attributes.sort_toAttributes]

theorem Event.rank_lt_warn (event : Event) : event.level.rank < Level.warn.rank := by
  cases event <;> simp [Event.level, Level.rank]

theorem Command.formatOfName?_name (format : Format) :
    formatOfName? format.name = some format := by
  cases format <;> rfl

theorem Command.ofArgs?_args (settings : QuerySettings) (path selector : String) :
    ofArgs? (settings.args path selector) = some (query path selector settings) := by
  obtain ⟨first, exactNames, usesIdIndex, format⟩ := settings
  have hwords : queryWords? {} ((QuerySettings.mk first exactNames usesIdIndex format).flags ++
      ["--", path, selector]) =
        some (⟨first, exactNames, usesIdIndex, format⟩, [path, selector]) := by
    cases first <;> cases exactNames <;> cases usesIdIndex <;>
      simp [QuerySettings.flags, queryWords?, formatOfName?_name]
  simp only [QuerySettings.args, ofArgs?, hwords]

namespace Host

variable {host : Host} {d e : Dom}

-- Without a filter nothing is written of events.
theorem log_of_no_filter (hlawful : host.Lawful) (hfilter : host.filter? = none)
    (events : List Event) (report : Report) : host.log events report = report := by
  have hquiet : ∀ event, host.logged "warn" event = "" := fun event =>
    hlawful.logged_warn event event.rank_lt_warn
  have hlines : String.join (events.map (host.logged "warn")) = "" := by
    induction events with
    | nil => rfl
    | cons event more ih => simpa [hquiet] using ih
  rw [log, hfilter]
  simp [hlines]

theorem log_nil (host : Host) (report : Report) : host.log [] report = report := by
  simp [log, String.join]

-- What is shown of the answer of a document that is not indexed.
def shown (host : Host) (dom : Dom) (selector : String) (settings : QuerySettings) : Report :=
  match Query.compile selector { exactNames := settings.exactNames } with
  | .error error => .ofSelectorError host.style selector error
  | .ok query =>
      match query.select dom.toTree [Dom.root] settings.mode with
      | .error error => .ofCrash (host.crash error.message)
      | .ok nodes => host.printMatches settings.format dom nodes

theorem printMatches_buildIndex (dom : Dom) (format : Format) (nodes : List Node) :
    host.printMatches format dom.buildIndex nodes = host.printMatches format dom nodes := by
  cases format with
  | text => rfl
  | json => rw [printMatches, printMatches, Dom.describe_buildIndex]

-- An index changes nothing but what is logged on the way.
theorem exists_log_shown (host : Host) {dom : Dom} (hdom : dom.Built) (selector : String)
    (settings : QuerySettings) :
    ∃ events, host.answer dom selector settings =
      host.log events (host.shown dom selector settings) := by
  have hcompile : Query.compile selector settings.options =
      (Query.compile selector { exactNames := settings.exactNames }).map
        (·.withIdIndex settings.usesIdIndex) :=
    Query.compile_usesIdIndex selector { exactNames := settings.exactNames } settings.usesIdIndex
  have hselect : ∀ query : Query,
      query.select (if settings.usesIdIndex then dom.buildIndex else dom).toTree [Dom.root]
        settings.mode = query.select dom.toTree [Dom.root] settings.mode := by
    intro query
    split
    · exact Query.select_buildIndex hdom query settings.mode
    · rfl
  have hprint : ∀ nodes : List Node, host.printMatches settings.format
      (if settings.usesIdIndex then dom.buildIndex else dom) nodes =
        host.printMatches settings.format dom nodes := by
    intro nodes
    split
    · exact printMatches_buildIndex dom settings.format nodes
    · rfl
  rw [answer, shown, hcompile]
  cases Query.compile selector { exactNames := settings.exactNames } with
  | error error => exact ⟨[], (log_nil ..).symm⟩
  | ok query =>
      simp only [Except.map, hselect, Query.select_withIdIndex hdom]
      cases query.select dom.toTree [Dom.root] settings.mode with
      | error error => exact ⟨_, rfl⟩
      | ok nodes =>
          simp only [hprint]
          exact ⟨_, rfl⟩

theorem printMatches_congr (hsort : d.sort = e.sort) (format : Format) (nodes : List Node) :
    host.printMatches format d nodes = host.printMatches format e nodes := by
  cases format with
  | text =>
      have hlines : Report.matchLine host.style d = Report.matchLine host.style e := by
        rw [← Report.matchLine_sort, hsort, Report.matchLine_sort]
      rw [printMatches, printMatches, Report.ofMatches, Report.ofMatches, hlines]
  | json =>
      have hdescribe : d.describe = e.describe := by
        funext node
        rw [← Dom.describe_sort, hsort, Dom.describe_sort]
      rw [printMatches, printMatches, hdescribe]

-- Neither does the order that attributes are kept in.
theorem shown_congr (host : Host) (hsort : d.sort = e.sort) (hapart : d.NamesApart)
    (selector : String) (settings : QuerySettings) :
    host.shown d selector settings = host.shown e selector settings := by
  have htree : d.toTree = e.toTree := by
    have hother : e.NamesApart := Dom.namesApart_sort.1 (hsort ▸ Dom.namesApart_sort.2 hapart)
    rw [← hapart.toTree_sort, hsort, hother.toTree_sort]
  simp only [shown, htree, printMatches_congr hsort]

theorem built_of_load {path : String} {dom : Dom} (h : host.load path = .ok dom) : dom.Built := by
  rw [load] at h
  cases hfile : host.file path with
  | error reason => simp [hfile] at h
  | ok text =>
      simp only [hfile] at h
      cases hload : Dom.load host.layout host.descriptions text with
      | error error => simp [hload] at h
      | ok loaded =>
          rw [hload] at h
          obtain rfl := Except.ok.inj h
          exact Dom.built_load hload

-- A file gives the same document under each layout, up to the order of attributes.
theorem sort_load (host : Host) (path : String) :
    (host.load path).map Dom.sort = { host with layout := .byName }.load path := by
  rw [load, load]
  cases host.file path with
  | error reason => rfl
  | ok text =>
      simp only [← Dom.sort_load host.layout]
      cases Dom.load host.layout host.descriptions text <;> rfl

theorem exists_log_execute (hlawful : host.Lawful) (other : Layout) (path selector : String)
    (settings : QuerySettings) (uses : Bool)
    (hapart : ∀ dom, host.load path = .ok dom → dom.NamesApart) : ∃ report first second,
    host.execute (settings.args path selector) = host.log first report ∧
      { host with layout := other }.execute
        ({ settings with usesIdIndex := uses }.args path selector) = host.log second report := by
  have hload : (host.load path).map Dom.sort =
      ({ host with layout := other }.load path).map Dom.sort :=
    (sort_load host path).trans (sort_load { host with layout := other } path).symm
  simp only [execute, hlawful.command_args, run]
  cases hd : host.load path with
  | error causes =>
      cases he : { host with layout := other }.load path with
      | error others =>
          rw [hd, he] at hload
          obtain rfl := Except.error.inj hload
          exact ⟨_, [], [], (log_nil ..).symm, (log_nil ..).symm⟩
      | ok e => simp [hd, he, Except.map] at hload
  | ok d =>
      cases he : { host with layout := other }.load path with
      | error causes => simp [hd, he, Except.map] at hload
      | ok e =>
          rw [hd, he] at hload
          have hshown := shown_congr host (Except.ok.inj hload) (hapart d hd) selector settings
          obtain ⟨first, hfirst⟩ := exists_log_shown host (built_of_load hd) selector settings
          obtain ⟨second, hsecond⟩ := exists_log_shown host (built_of_load he) selector
            { settings with usesIdIndex := uses }
          refine ⟨_, first, second, hfirst, hsecond.trans ?_⟩
          rw [hshown]
          rfl

theorem lawful_terminal (file : String → Except String String) : (terminal file).Lawful where
  command_args settings path selector := by
    simp only [terminal, Command.ofArgs?_args, Option.elim_some]
  logged_warn _ _ := rfl

-- A list that has an id and a language.
def listText : String :=
  "[\x7b\"tag\":\"ul\",\"attrs\":\x7b\"lang\":\"de\",\"id\":\"x\"\x7d\x7d]"

def listAttributes : SortedAttributes := .ofList [("id", "x"), ("lang", "de")]

def listDocument : Dom :=
  (Dom.new.adopt Dom.root (.element "ul" listAttributes.toAttributes)).2

-- A terminal with one file, of which the reader knows what it says.
def listHost : Host :=
  { terminal fun _ => .ok listText with
    descriptions := fun text =>
      if text = listText then .ok [.element "ul" listAttributes []]
      else .error ⟨.malformed, "expected value at line 1 column 1"⟩ }

-- Maps that give their pairs back to front.
def backwards : Layout where
  fill _ attrs := ⟨attrs.pairs.reverse, List.pairwise_reverse.2 (attrs.distinct.imp Ne.symm)⟩
  perm _ _ := List.reverse_perm _

end Host

end CssQuery
