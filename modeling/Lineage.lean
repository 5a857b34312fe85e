import Lineage.AuthorFn.Catalogue
import Lineage.History
import Lineage.Main
import Lineage.Migration.Batch
import Lineage.Step.Construction
import Lineage.Proofs.Number.Order
import Lineage.Proofs.Outcome
import Lineage.Proofs.Value.Checked
import Lineage.Proofs.Field.Tree
import Lineage.Proofs.Field.Attributes
import Lineage.Proofs.Field.Meaning
import Lineage.Proofs.Validation.Parts
import Lineage.Proofs.Validation.Related
import Lineage.Proofs.Value.Entries
import Lineage.Proofs.Field.Constructed
import Lineage.Proofs.Validation.Acceptance
import Lineage.Proofs.Validation.Meant
import Lineage.Proofs.Format.Exclusive
import Lineage.Proofs.Field.OverlapAnswer
import Lineage.Proofs.Field.Overlap
import Lineage.Proofs.Validation.Unambiguous
import Lineage.Proofs.Validation.Total
import Lineage.Proofs.Validation.Tags
import Lineage.Proofs.Validation.Complete
import Lineage.Proofs.Validation.Discriminant
import Lineage.Proofs.Field.ReadBack
import Lineage.Proofs.Field.Rebuilding
import Lineage.Proofs.Field.Document
import Lineage.Proofs.Field.Reading
import Lineage.Proofs.Validation.LeastCount
import Lineage.Proofs.Field.Difference
import Lineage.Proofs.Schema.Document
import Lineage.Proofs.Field.Editing
import Lineage.Proofs.Field.Typed
import Lineage.Proofs.Change.Progress
import Lineage.Proofs.Change.Safety
import Lineage.Proofs.Step.Fields
import Lineage.Proofs.Step.Values
import Lineage.Proofs.Step.Progress
import Lineage.Proofs.Step.Safety
import Lineage.Proofs.Field.Agreement
import Lineage.Proofs.Migration.Progress
import Lineage.Proofs.Value.Edited
import Lineage.Proofs.Step.Json
import Lineage.Proofs.Migration.Construction
import Lineage.Proofs.Migration.Json
import Lineage.Proofs.Migration.Failure
import Lineage.Proofs.Change.Omission
import Lineage.Proofs.Step.Omission
import Lineage.Proofs.History.Upgrade
import Lineage.Proofs.Validation.Undrifted
import Lineage.Proofs.Migration.Batch
import Lineage.Proofs.Field.OverlapOrder
import Lineage.Proofs.Validation.Leniency
import Lineage.Proofs.Command.Leniency
import Lineage.Proofs.Value.Loose
import Lineage.Proofs.Field.Comparison
import Lineage.Proofs.Change.Lockstep
import Lineage.Proofs.Migration.Derivation
import Lineage.Proofs.Step.Lockstep
import Lineage.Proofs.Change.Frame
import Lineage.Proofs.Change.Defaults
import Lineage.Proofs.Step.Frame
import Lineage.Proofs.Step.Defaults
import Lineage.Proofs.Value.Places
import Lineage.Proofs.Field.Places
import Lineage.Proofs.Change.Places
import Lineage.Proofs.Step.Keys
import Lineage.Proofs.Change.Undo
import Lineage.Proofs.Step.Undo
import Lineage.Proofs.Field.Suits
import Lineage.Proofs.Change.Exchange
import Lineage.Proofs.Change.Commute
import Lineage.Proofs.Change.Lasting
import Lineage.Proofs.Step.Lasting
import Lineage.Proofs.Step.Commute
import Lineage.Proofs.Field.Relocation
import Lineage.Proofs.Validation.Relocation
import Lineage.Proofs.Validation.Location
import Lineage.Proofs.Field.DocumentParts
import Lineage.Proofs.Field.Refusal
import Lineage.Proofs.Command.Refusal
import Lineage.Proofs.Field.Stability
import Lineage.Proofs.Text.ReadBack
import Lineage.Proofs.Path.Text
import Lineage.Proofs.Validation.EqualValues
import Lineage.Proofs.Value.Gates
import Lineage.Proofs.Number.Rounding
import Lineage.Proofs.Number.Amount
import Lineage.Proofs.Sample.Draw
import Lineage.Proofs.Sample.Number
import Lineage.Proofs.Sample.Conformance
import Lineage.Proofs.Path.Selector
import Lineage.Proofs.Json.RoundTrip
