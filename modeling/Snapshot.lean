import Snapshot.FileTree.WalkLemmas
import Snapshot.Filter.Lemmas
import Snapshot.Main
import Snapshot.Path.Lemmas
import Snapshot.Text.Utf8Lemmas
import Snapshot.Proofs.Emission
import Snapshot.Proofs.LinkFree
import Snapshot.Proofs.Lookup
import Snapshot.Proofs.Ensures
import Snapshot.Proofs.FileCopies
import Snapshot.Proofs.JobSteps
import Snapshot.Proofs.Listings
import Snapshot.Proofs.Walks
import Snapshot.Proofs.Acceptance
import Snapshot.Proofs.Preparation
import Snapshot.Proofs.Removals
import Snapshot.Proofs.Sources
import Snapshot.Proofs.Delivery
import Snapshot.Proofs.Reached
import Snapshot.Proofs.Coverage
import Snapshot.Proofs.RootRecords
import Snapshot.Proofs.FreshExport
import Snapshot.Proofs.Omission
import Snapshot.Proofs.Survival
import Snapshot.Proofs.Agreement
import Snapshot.Proofs.Confinement
import Snapshot.Proofs.Inputs
import Snapshot.Proofs.Openings
import Snapshot.Proofs.RemovalBounds
import Snapshot.Proofs.Suppression
import Snapshot.Proofs.Foresight
import Snapshot.Proofs.Overwriting
import Snapshot.Proofs.StoppedExport
import Snapshot.Proofs.Presentation
import Snapshot.Proofs.RefusedExport
import Snapshot.Proofs.Depth
import Snapshot.Proofs.LinkBudget
import Snapshot.Proofs.RootOrder
import Snapshot.Proofs.GuardMeaning
import Snapshot.Proofs.Imbalance
import Snapshot.Proofs.Filtering
import Snapshot.Proofs.Streaming
import Snapshot.Proofs.Composition
import Snapshot.Proofs.VersionRanges
import Snapshot.Proofs.LineEndings
import Snapshot.Proofs.PassThrough
import Snapshot.Proofs.Classification
import Snapshot.Proofs.Normalization
import Snapshot.Proofs.Descents
import Snapshot.Proofs.Scanning
import Snapshot.Proofs.RootSpelling
