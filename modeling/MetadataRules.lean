import MetadataRules.Json.Reader
import MetadataRules.Main
import MetadataRules.Proofs.Path.Access
import MetadataRules.Proofs.Path.Divergence
import MetadataRules.Proofs.Rule.Action
import MetadataRules.Proofs.Rule.WellFormed
import MetadataRules.Proofs.Run.Touched
import MetadataRules.Proofs.Run.Whole
import MetadataRules.Proofs.Run.Elements
import MetadataRules.Proofs.Value.Equality
import MetadataRules.Proofs.Run.Atomic
import MetadataRules.Proofs.Run.Frame
import MetadataRules.Proofs.Path.Overlap
import MetadataRules.Proofs.Run.Rename
import MetadataRules.Proofs.Run.Silence
import MetadataRules.Proofs.Run.Prevented
import MetadataRules.Proofs.Run.Repeat
import MetadataRules.Proofs.Rule.Embedded
import MetadataRules.Proofs.Alike.Operation
import MetadataRules.Proofs.Run.Commute
import MetadataRules.Proofs.Run.Root
import MetadataRules.Proofs.Run.Membership
import MetadataRules.Proofs.Run.Phantom
import MetadataRules.Proofs.Run.Selection
import MetadataRules.Proofs.Number.Fixed
import MetadataRules.Proofs.Run.Finite
import MetadataRules.Proofs.Run.Sequence
import MetadataRules.Proofs.Document.RoundTrip
import MetadataRules.Proofs.Path.Laws
import MetadataRules.Proofs.Document.FrontMatter
import MetadataRules.Proofs.Block
import MetadataRules.Proofs.Merge.Laws
import MetadataRules.Proofs.Sort
import MetadataRules.Proofs.Condition.Address
import MetadataRules.Proofs.Duplicates
import MetadataRules.Proofs.Position
import MetadataRules.Proofs.Value.Comparison
import MetadataRules.Proofs.Number.Text
import MetadataRules.Proofs.Run.InPlace
import MetadataRules.Proofs.Run.Update
import MetadataRules.Proofs.Token.Spelling
import MetadataRules.Proofs.Path.Text
import MetadataRules.Proofs.Token.Number
import MetadataRules.Proofs.Rule.Compact
import MetadataRules.Proofs.Document.Split
import MetadataRules.Proofs.Run.KeyOrder
import MetadataRules.Proofs.Clock
import MetadataRules.Proofs.Rule.Offending
import MetadataRules.Proofs.Token.Tiles
import MetadataRules.Proofs.Gap
