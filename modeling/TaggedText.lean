import TaggedText.Text.Alphabetic
import TaggedText.Text.Numeric
import TaggedText.Tree.Resolve
import TaggedText.Rendering
import TaggedText.Main
import TaggedText.Proofs.Entries
import TaggedText.Proofs.Links
import TaggedText.Proofs.Ownership
import TaggedText.Proofs.Ownership.Guards
import TaggedText.Proofs.Ownership.Operations
import TaggedText.Proofs.Ownership.Copying
import TaggedText.Proofs.Ownership.Drafting
import TaggedText.Proofs.Session
import TaggedText.Proofs.Tiling
import TaggedText.Proofs.Coverage
import TaggedText.Proofs.Grammar.Sentences
import TaggedText.Proofs.Grammar.Soundness
import TaggedText.Proofs.Grammar.Completeness
import TaggedText.Proofs.Grammar.Canonical
import TaggedText.Proofs.Placeholder
import TaggedText.Proofs.Interpolation
import TaggedText.Proofs.Preorder
import TaggedText.Proofs.Walk
import TaggedText.Proofs.Resolving
import TaggedText.Proofs.Outline
import TaggedText.Proofs.Outline.Changes
import TaggedText.Proofs.Resolving.Isomorphism
import TaggedText.Proofs.Outline.Building
import TaggedText.Proofs.Outline.Mirroring
import TaggedText.Proofs.Outline.Matching
import TaggedText.Proofs.Resolving.Reachable
import TaggedText.Proofs.Grammar.Quotation
import TaggedText.Proofs.Chunks
import TaggedText.Proofs.Outline.Balance
import TaggedText.Proofs.Outline.Problems
import TaggedText.Proofs.CommandLine
import TaggedText.Proofs.Json.Leaves
import TaggedText.Proofs.Json.RoundTrip
import TaggedText.Proofs.Rounding
import TaggedText.Proofs.Value.RoundTrip
import TaggedText.Proofs.Layout.Frames
import TaggedText.Proofs.Layout.Assembly
import TaggedText.Proofs.Settings
import TaggedText.Proofs.Lineage
import TaggedText.Proofs.Ownership.Attaching
import TaggedText.Proofs.Ownership.Effects
import TaggedText.Proofs.Ownership.InPlace
import TaggedText.Proofs.Traversal
import TaggedText.Proofs.Layout.Scanning
import TaggedText.Proofs.Interpolation.Values
import TaggedText.Proofs.Layout.Contents
import TaggedText.Proofs.Grammar.Pointing
import TaggedText.Proofs.Layout.Errors
import TaggedText.Proofs.Outline.Annotations
import TaggedText.Proofs.Grammar.Constructors
import TaggedText.Proofs.Value.Paths
import TaggedText.Proofs.Value.Equality
import TaggedText.Proofs.Outline.Classes
import TaggedText.Proofs.Closing
import TaggedText.Proofs.Grammar.Surroundings
import TaggedText.Proofs.Value.Numerals
import TaggedText.Token.Checked
