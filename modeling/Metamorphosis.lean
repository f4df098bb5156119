import Metamorphosis.Compile
import Metamorphosis.Document
import Metamorphosis.Proofs.Arena.Requests
import Metamorphosis.Proofs.Checked.Compile
import Metamorphosis.Proofs.Decomposition
import Metamorphosis.Proofs.Document.Closed
import Metamorphosis.Proofs.Document.Disjoint
import Metamorphosis.Proofs.Document.Kinds
import Metamorphosis.Proofs.Document.Names
import Metamorphosis.Proofs.Document.Ready
import Metamorphosis.Proofs.Document.Rendering
import Metamorphosis.Proofs.Emptiness
import Metamorphosis.Proofs.GlyphRule.Completeness
import Metamorphosis.Proofs.GlyphRule.Ownership
import Metamorphosis.Proofs.GlyphRule.Split
import Metamorphosis.Proofs.MarkingPass
import Metamorphosis.Proofs.Merge
import Metamorphosis.Proofs.MultiPass
import Metamorphosis.Proofs.Occurrence
import Metamorphosis.Proofs.RuleGroup.Adjacent
import Metamorphosis.Proofs.RuleGroup.BetweenChain
import Metamorphosis.Proofs.RuleGroup.Invariance
import Metamorphosis.Proofs.RuleGroup.Whole
import Metamorphosis.Proofs.Source.Layout
import Metamorphosis.Proofs.Source.LineEndings
import Metamorphosis.Proofs.Source.LineNumbers
import Metamorphosis.Proofs.Source.Printing
import Metamorphosis.Proofs.StateTable.Between
import Metamorphosis.Proofs.StateTable.Reachability
import Metamorphosis.Proofs.Temporaries
import Metamorphosis.Proofs.Verb
import Metamorphosis.Source.Load
import Metamorphosis.Source.Printer
