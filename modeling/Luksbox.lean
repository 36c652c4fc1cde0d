import Luksbox.Lib.Paths
import Luksbox.Lib.ByteFile
import Luksbox.Model.Run
import Luksbox.Model.Deniable
import Luksbox.Model.Header
import Luksbox.Model.Rotation
import Luksbox.Model.Session
import Luksbox.Model.Mount
import Luksbox.Model.Keyslot
import Luksbox.Model.SlotKeys
import Luksbox.Model.HeaderCodec
import Luksbox.Model.Unlock
import Luksbox.Model.SlotOps
import Luksbox.Model.AnchorFile
import Luksbox.Model.MetadataRegion
import Luksbox.Model.PayloadCodec
import Luksbox.Model.ShrinkControl
import Luksbox.Model.WinFsp
import Luksbox.Proofs.Steps
import Luksbox.Proofs.Entries
import Luksbox.Proofs.ContainerSteps
import Luksbox.Proofs.NamespaceRuns
import Luksbox.Proofs.Scans
import Luksbox.Proofs.Validator
import Luksbox.Proofs.Parents
import Luksbox.Proofs.Micro
import Luksbox.Proofs.Ledger
import Luksbox.Proofs.FlushPath
import Luksbox.Proofs.Sizes
import Luksbox.Proofs.SlotPath
import Luksbox.Proofs.View
import Luksbox.Proofs.ViewSteps
import Luksbox.Proofs.Addressing
import Luksbox.Proofs.FilePath
import Luksbox.Proofs.WritePath
import Luksbox.Proofs.Budget
import Luksbox.Proofs.Calls
import Luksbox.Proofs.DataEdits
import Luksbox.Proofs.ReadPath
import Luksbox.Proofs.Exec
import Luksbox.Proofs.Ownership
import Luksbox.Proofs.Chains
import Luksbox.Proofs.Deniable
import Luksbox.Proofs.TornDeniable
import Luksbox.Proofs.Rotation
import Luksbox.Proofs.HeaderWrites
import Luksbox.Proofs.HeaderRuns
import Luksbox.Proofs.Revocation
import Luksbox.Lib.Keeps
import Luksbox.Proofs.Walk
import Luksbox.Proofs.Generations
import Luksbox.Proofs.AnchorHeader
import Luksbox.Proofs.GenerationRuns
import Luksbox.Proofs.AnchorRuns
import Luksbox.Proofs.Seals
import Luksbox.Proofs.Shrinking
import Luksbox.Proofs.Failures
import Luksbox.Proofs.Commits
import Luksbox.Proofs.CommitRuns
import Luksbox.Proofs.SlotCodec
import Luksbox.Proofs.HeaderCodec
import Luksbox.Proofs.SlotKeys
import Luksbox.Proofs.Tampering
import Luksbox.Proofs.Dispatch
import Luksbox.Proofs.Regions
import Luksbox.Proofs.SepBlobs
import Luksbox.Proofs.TornHeader
import Luksbox.Proofs.HybridSidecar
import Luksbox.Proofs.SeedFile
import Luksbox.Proofs.FileBytes
import Luksbox.Proofs.Contents
import Luksbox.Proofs.FileSystem
import Luksbox.Proofs.FileSystemRuns
import Luksbox.Proofs.Panics
import Luksbox.Proofs.AnchorFile
import Luksbox.Proofs.AnchorCalls
import Luksbox.Proofs.MetadataRegion
import Luksbox.Proofs.MetadataStore
import Luksbox.Proofs.PayloadCodec
import Luksbox.Proofs.ShrinkControl
import Luksbox.Proofs.CaseNames
import Luksbox.Proofs.WinFsp
