import StackCode.Bytecode.Draft
import StackCode.Bytecode.Machine
import StackCode.Command.Recorded
import StackCode.Main
import StackCode.Proofs.Bytes
import StackCode.Proofs.Bytecode.Decoding
import StackCode.Proofs.Bytecode.DraftDecoding
import StackCode.Proofs.Lowering.Catalog
import StackCode.Proofs.Lowering.Walk
import StackCode.Proofs.Lowering.Image
import StackCode.Proofs.Memory.Words
import StackCode.Proofs.X64.Execution
import StackCode.Proofs.X64.Effects
import StackCode.Proofs.Lowering.BlockMeaning
import StackCode.Proofs.Lowering.Placement
import StackCode.Proofs.Lowering.Simulation
import StackCode.Proofs.Lowering.BranchReach
import StackCode.Proofs.Lowering.Acceptance
import StackCode.Proofs.Lowering.Alignment
import StackCode.Proofs.Cache.Entries
import StackCode.Proofs.Lowering.Relinking
import StackCode.Proofs.Cache.Store
import StackCode.Proofs.Session.Preparing
import StackCode.Proofs.Session.Transparency
import StackCode.Proofs.Session.DamagedStore
import StackCode.Proofs.Lowering.Linking
import StackCode.Proofs.Bytecode.ListingLines
import StackCode.Proofs.Lowering.ListingAgreement
import StackCode.Proofs.Lowering.DraftAcceptance
import StackCode.Proofs.Session.LifeCycle
import StackCode.Proofs.Bytecode.Grammar
import StackCode.Proofs.Lowering.FillOutcome
import StackCode.Proofs.Lowering.PatchOutcome
import StackCode.Proofs.X64.Assembly
import StackCode.Proofs.Lowering.LayoutInvariants
import StackCode.Proofs.Lowering.NativeListing
import StackCode.Proofs.Memory.WindowPlacement
import StackCode.Proofs.Memory.WindowHistory
import StackCode.Proofs.Cache.Pruning
import StackCode.Proofs.Bytecode.ListingRecovery
import StackCode.Proofs.Cache.StoreHistory
import StackCode.Proofs.Bytecode.DraftHistory
import StackCode.Proofs.Memory.CodeHistory
import StackCode.Proofs.Settings.Precedence
import StackCode.Proofs.Lowering.CatalogSerialization
import StackCode.Proofs.Cache.KeyRanges
import StackCode.Proofs.Lowering.TemplateAssembly
import StackCode.Proofs.Lowering.CatalogOrder
