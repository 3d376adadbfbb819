import LeaseVec.CodeTable
import LeaseVec.EntryPoint
import LeaseVec.World.Command
import LeaseVec.Main
import LeaseVec.Proofs.Scan
import LeaseVec.Proofs.World.Span
import LeaseVec.Proofs.World.Takings
import LeaseVec.Proofs.Ownership.Isolation
import LeaseVec.Proofs.Lists.Refinement
import LeaseVec.Proofs.Bundle.Acceptance
import LeaseVec.Proofs.Bundle.Agreement
import LeaseVec.Proofs.Files.Replacing
import LeaseVec.Proofs.Bundle.RoundTrip
import LeaseVec.Proofs.Pack.Documents
import LeaseVec.Proofs.Pack.Packing
import LeaseVec.Proofs.Pack.Opening
import LeaseVec.Proofs.Pack.Names
import LeaseVec.Proofs.Lifetime.Regions
import LeaseVec.Proofs.Lifetime.Borrows
import LeaseVec.Proofs.Lifetime.Leases
import LeaseVec.Proofs.Bundle.InPlace
import LeaseVec.Proofs.Bundle.Canonical
import LeaseVec.Proofs.Lifetime.Released
import LeaseVec.Proofs.Stream.Mirror
import LeaseVec.Proofs.Lifetime.Walks
import LeaseVec.Proofs.Ownership.Kinds
import LeaseVec.Proofs.Bundle.Refusals
import LeaseVec.Proofs.Bundle.Truncation
import LeaseVec.Proofs.Ownership.Failures
import LeaseVec.Proofs.Bundle.Atomic
import LeaseVec.Proofs.Ownership.Reports
import LeaseVec.Proofs.Pack.Validity
import LeaseVec.Proofs.Bundle.Spans
import LeaseVec.Proofs.Ownership.Capacities
import LeaseVec.Proofs.Ownership.Fillings
import LeaseVec.Proofs.Ownership.Bystanders
import LeaseVec.Proofs.Lifetime.Rounds
import LeaseVec.Proofs.Files.Names
import LeaseVec.Proofs.Files.Places
import LeaseVec.Proofs.Files.Parents
import LeaseVec.Proofs.Files.Renames
import LeaseVec.Proofs.Files.AllOrNothing
import LeaseVec.Proofs.Ownership.Footprints
import LeaseVec.Proofs.Ownership.Reach
import LeaseVec.Proofs.Bundle.Lodging
import LeaseVec.Proofs.Stream.WrittenFields
import LeaseVec.Proofs.Bundle.Bounds
import LeaseVec.Proofs.Bundle.Effort
import LeaseVec.Proofs.Config.Limits
import LeaseVec.Proofs.Stream.Cursor
import LeaseVec.Proofs.Json.Members
import LeaseVec.Proofs.CodeTable
import LeaseVec.Proofs.Files.Resolved
import LeaseVec.Proofs.Config.Resolution
import LeaseVec.Proofs.Bundle.Inspection
import LeaseVec.Proofs.Files.LastWrites
import LeaseVec.Proofs.Files.Snapshots
import LeaseVec.Proofs.Pack.Saving
