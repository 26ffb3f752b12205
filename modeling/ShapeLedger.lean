import ShapeLedger.Binary64
import ShapeLedger.NameTable
import ShapeLedger.Text.Blank
import ShapeLedger.Text.Hex
import ShapeLedger.Text.Quoted
import ShapeLedger.Digest.Md5
import ShapeLedger.Digest
import ShapeLedger.Catalog.TypeRef
import ShapeLedger.Catalog
import ShapeLedger.Config
import ShapeLedger.Selection
import ShapeLedger.Descriptor
import ShapeLedger.Category
import ShapeLedger.Expansion
import ShapeLedger.Path
import ShapeLedger.Fingerprint
import ShapeLedger.Shape.Segments
import ShapeLedger.Shape.Diff
import ShapeLedger.Registry
import ShapeLedger.Json
import ShapeLedger.Json.Reader
import ShapeLedger.Json.Printer
import ShapeLedger.Json.Range
import ShapeLedger.Json.Decode
import ShapeLedger.Catalog.Snapshot
import ShapeLedger.Toml
import ShapeLedger.Toml.Text
import ShapeLedger.Toml.Number
import ShapeLedger.Toml.Reader
import ShapeLedger.Config.Toml
import ShapeLedger.FileTree
import ShapeLedger.FileTree.Route
import ShapeLedger.FileTree.Change
import ShapeLedger.Ledger.Failure
import ShapeLedger.Ledger.Name
import ShapeLedger.Ledger.Record
import ShapeLedger.Ledger
import ShapeLedger.Proofs.Alike
import ShapeLedger.Proofs.PathKey
import ShapeLedger.Proofs.Walk
import ShapeLedger.Proofs.Saturation
import ShapeLedger.Proofs.FirstFault
import ShapeLedger.Proofs.Related
import ShapeLedger.Proofs.Visits
import ShapeLedger.Proofs.OpenTypes
import ShapeLedger.Proofs.MemberOrder
import ShapeLedger.Proofs.Locality
import ShapeLedger.Proofs.ReservedMember
import ShapeLedger.Proofs.Dependence
import ShapeLedger.Proofs.ReadBack
import ShapeLedger.Proofs.Readability
import ShapeLedger.Proofs.Unfolding
import ShapeLedger.Proofs.BackReference
import ShapeLedger.Proofs.WellFormed
import ShapeLedger.Proofs.NestingLimit
import ShapeLedger.Proofs.Occurrence
import ShapeLedger.Proofs.Substitution
import ShapeLedger.Proofs.Cutting
import ShapeLedger.Proofs.Changes
import ShapeLedger.Proofs.Patching
import ShapeLedger.Proofs.MemberDiff
import ShapeLedger.Proofs.Recording
import ShapeLedger.Proofs.Requests
import ShapeLedger.Proofs.Trace
import ShapeLedger.Proofs.Loading
import ShapeLedger.Proofs.JsonReadBack
import ShapeLedger.Proofs.JsonDepth
import ShapeLedger.Proofs.JsonDecode
import ShapeLedger.Proofs.LedgerNames
import ShapeLedger.Proofs.LedgerReadBack
import ShapeLedger.Proofs.SnapshotReadBack
import ShapeLedger.Proofs.Sessions
import ShapeLedger.Proofs.Migration
import ShapeLedger.Proofs.Listing
import ShapeLedger.Proofs.Places
import ShapeLedger.Proofs.Saving
import ShapeLedger.Proofs.Overlay
import ShapeLedger.Proofs.Resaving
import ShapeLedger.Proofs.ListingOrder
import ShapeLedger.Proofs.Rearranging
import ShapeLedger.Proofs.Interrupting
import ShapeLedger.Proofs.Numbering
import ShapeLedger.Proofs.Segmentation
import ShapeLedger.Proofs.Acceptance
import ShapeLedger.Proofs.Cataloguing
import ShapeLedger.Proofs.DigestText
