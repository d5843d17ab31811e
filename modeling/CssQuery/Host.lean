import CssQuery.Command.Settings
import CssQuery.Dom.Load
import CssQuery.Report
import CssQuery.Selector.Json

namespace CssQuery

-- How much an event in a run matters to whoever looks after the program.
inductive Level where
  | trace
  | debug
  | info
  | warn
  | error
  deriving DecidableEq, Repr

def Level.rank : Level → Nat
  | trace => 0
  | debug => 1
  | info => 2
  | warn => 3
  | error => 4

-- What a run tells of its progress.
inductive Event where
  | compiled (selector : String) (branches : Nat) (isSeeded needsPositions isSubjectOnly : Bool)
  | selected (selector : String) (mode : SelectMode) (roots found : Nat)
  | finished (selector : String) (nodes found : Nat)
  deriving DecidableEq, Repr

def Event.level : Event → Level
  | compiled .. => .debug
  | selected .. => .trace
  | finished .. => .info

-- What a run takes from outside: its files, how words are read as commands and texts as JSON,
-- and how values, failures, styles and events are written.
structure Host where
  -- The command that words ask for, or what is reported if they ask for none.
  command : List String → Except Report Command
  -- The text of a file, or why it cannot be read.
  file : String → Except String String
  -- The nodes that a JSON text describes.
  descriptions : String → Except Json.Error (List Description)
  layout : Layout
  -- A value as a JSON text on lines of its own.
  pretty : Json → Except String String
  style : Style → String → String
  -- What is told of a failure, given its causes. The last one is where it began.
  failure : List String → String
  crash : String → String
  -- The filter that is set for events, if there is one.
  filter? : Option String
  -- What is written of an event under a filter.
  logged : String → Event → String

namespace Host

-- What a run counts on. Flags are read as what they stand for, and the filter that lets
-- warnings through lets nothing of less weight through.
structure Lawful (host : Host) : Prop where
  command_args : ∀ (settings : QuerySettings) (path selector : String),
    host.command (settings.args path selector) = .ok (.query path selector settings)
  logged_warn : ∀ event : Event, event.level.rank < Level.warn.rank →
    host.logged "warn" event = ""

variable (host : Host)

-- Puts what is logged of events in front of all else that goes to the same place. Without a
-- filter of their own only warnings are let through.
def log (events : List Event) (report : Report) : Report :=
  let lines := events.map (host.logged (host.filter?.getD "warn"))
  { report with stderr := String.join lines ++ report.stderr }

def fail (causes : List String) : Report := .ofFailure (host.failure causes)

def printJson (value : Json) : Report :=
  match host.pretty value with
  | .error message => host.fail [message]
  | .ok text => ⟨0, text ++ "\n", ""⟩

def printMatches (format : Format) (dom : Dom) (nodes : List Node) : Report :=
  match format with
  | .text => .ofMatches host.style dom nodes
  | .json => host.printJson (.array (Description.listToJson (nodes.filterMap dom.describe)))

-- The matches of a query in a document, which gets an index if the query may use
-- one.
def answer (dom : Dom) (selector : String) (settings : QuerySettings) : Report :=
  let dom := if settings.usesIdIndex then dom.buildIndex else dom
  match Query.compile selector settings.options with
  | .error error => .ofSelectorError host.style selector error
  | .ok query =>
      let compiled := .compiled selector query.chains.length query.seeds?.isSome
        query.needsPositions query.isSubjectOnly
      match query.select dom.toTree [Dom.root] settings.mode with
      | .error error => host.log [compiled] (.ofCrash (host.crash error.message))
      | .ok nodes =>
          let selected := .selected selector settings.mode 1 nodes.length
          let finished := .finished selector dom.size nodes.length
          host.log [compiled, selected, finished] (host.printMatches settings.format dom nodes)

-- The document that a file describes, or what led to the failure to load it.
def load (path : String) : Except (List String) Dom :=
  match host.file path with
  | .error reason => .error [s!"failed to read {path}", reason]
  | .ok text =>
      match Dom.load host.layout host.descriptions text with
      | .error error => .error (s!"failed to load tree from {path}" :: error.causes)
      | .ok dom => .ok dom

def run : Command → Report
  | .parse selector =>
      match SelectorList.ofText selector ({} : Options).maxNesting with
      | .error error => .ofSelectorError host.style selector error
      | .ok selectors => host.printJson selectors.toJson
  | .query path selector settings =>
      match host.load path with
      | .error causes => host.fail causes
      | .ok dom => host.answer dom selector settings

-- A run of the program, given the words of the command line.
def execute (words : List String) : Report :=
  match host.command words with
  | .error report => report
  | .ok command => host.run command

end Host

end CssQuery
