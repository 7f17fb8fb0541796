import RuleGraph.CommandLine
import RuleGraph.Document.Wire
import RuleGraph.Main
import RuleGraph.Session
import RuleGraph.Proofs.Drawing
import RuleGraph.Proofs.Lookup
import RuleGraph.Proofs.Paths
import RuleGraph.Proofs.Refusals
import RuleGraph.Proofs.Nesting
import RuleGraph.Proofs.Connections
import RuleGraph.Proofs.Doubles
import RuleGraph.Proofs.Edits
import RuleGraph.Proofs.Grammar
import RuleGraph.Proofs.Writing
import RuleGraph.Proofs.Codecs
import RuleGraph.Proofs.Snapshots
import RuleGraph.Proofs.Saving
import RuleGraph.Proofs.Names
import RuleGraph.Proofs.Spelling
import RuleGraph.Proofs.Nodes
import RuleGraph.Proofs.Numbers
import RuleGraph.Proofs.Positions
import RuleGraph.Proofs.Relayouts
import RuleGraph.Proofs.RootCycles
import RuleGraph.Proofs.RoundTrip
import RuleGraph.Proofs.Unfolding
import RuleGraph.Proofs.Locality
import RuleGraph.Proofs.Documents
import RuleGraph.Proofs.Traces
import RuleGraph.Proofs.Walks
import RuleGraph.Proofs.Occurrences
import RuleGraph.Proofs.Substitution
import RuleGraph.Proofs.Redrawing
import RuleGraph.Proofs.Carrying
import RuleGraph.Proofs.Keys
import RuleGraph.Proofs.Undoing
import RuleGraph.Proofs.Replaying
import RuleGraph.Proofs.Spacing
import RuleGraph.Proofs.Rounding
import RuleGraph.Proofs.Numerals
import RuleGraph.Proofs.Texts
import RuleGraph.Proofs.Rereading
import RuleGraph.Proofs.Nearest
import RuleGraph.Proofs.Measuring
import RuleGraph.Proofs.Deletion
import RuleGraph.Proofs.Preorder
import RuleGraph.Proofs.Composition
import RuleGraph.Proofs.Settling
import RuleGraph.Proofs.Rewriting
import RuleGraph.Proofs.FirstFaults
import RuleGraph.Proofs.Defects
import RuleGraph.Proofs.Unwritable
import RuleGraph.Proofs.Policies
import RuleGraph.Proofs.Commuting
import RuleGraph.Proofs.Disconnecting
import RuleGraph.Proofs.Forms
import RuleGraph.Proofs.WordBounds
