import TypedStore.Instance
import TypedStore.Model.Upsert
import TypedStore.Model.Binding
import TypedStore.Proofs.Reachable
import TypedStore.Proofs.Resolution
import TypedStore.Proofs.Conjunction
import TypedStore.Proofs.Renaming
import TypedStore.Proofs.Levels
import TypedStore.Proofs.RecordView
import TypedStore.Proofs.Saving
import TypedStore.Proofs.Import
import TypedStore.Proofs.Issuing
import TypedStore.Proofs.Preparing
import TypedStore.Proofs.Registering
import TypedStore.Proofs.Upserting
import TypedStore.Proofs.Merging
import TypedStore.Proofs.Updating
import TypedStore.Proofs.RoundTrip
import TypedStore.Proofs.Agreement
import TypedStore.Proofs.Declared
import TypedStore.Proofs.Mirroring
import TypedStore.Proofs.Pinning
import TypedStore.Proofs.Settling
import TypedStore.Proofs.Failing
import TypedStore.Proofs.Faithful
import TypedStore.Proofs.ReadingBack
import TypedStore.Proofs.FindingAgain
import TypedStore.Proofs.Seeding
import TypedStore.Proofs.KeyOrder
import TypedStore.Proofs.Respelling
import TypedStore.Proofs.Exporting
import TypedStore.Proofs.Equality
import TypedStore.Proofs.Evaluation
import TypedStore.Proofs.Predicates
import TypedStore.Proofs.DeepMerge
import TypedStore.Proofs.Expanding
import TypedStore.Proofs.Templates
import TypedStore.Proofs.Handles
import TypedStore.Proofs.Isolation
import TypedStore.Proofs.Writing
import TypedStore.Proofs.Assigning
import TypedStore.Proofs.DeadEnds
import TypedStore.Proofs.Landing
import TypedStore.Proofs.Batches
import TypedStore.Proofs.Describing
import TypedStore.Proofs.Charting
import TypedStore.Proofs.Arithmetic
import TypedStore.Proofs.Layering
import TypedStore.Proofs.LookingUp
