import CssQuery.Command
import CssQuery.Main
import CssQuery.Options.Reader
import CssQuery.Proofs.Dom.History
import CssQuery.Proofs.Dom.Iteration
import CssQuery.Proofs.Dom.Relinking
import CssQuery.Proofs.Dom.Untagged
import CssQuery.Proofs.Host
import CssQuery.Proofs.Query.Heedless
import CssQuery.Proofs.Query.InTurn
import CssQuery.Proofs.Query.LetterCase
import CssQuery.Proofs.Query.Pruning
import CssQuery.Proofs.Query.Recency
import CssQuery.Proofs.Query.Structural
import CssQuery.Proofs.Query.Texts
import CssQuery.Proofs.Report
import CssQuery.Proofs.Selector.Argument
import CssQuery.Proofs.Selector.Comparison
import CssQuery.Proofs.Selector.Picks
import CssQuery.Proofs.Selector.Reader.Limits
import CssQuery.Proofs.Token.Insertion
import CssQuery.Proofs.Tree.Enumeration
