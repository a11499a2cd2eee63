import StageZero.Address
import StageZero.Address.Parser
import StageZero.Address.Printer
import StageZero.Address.Startup
import StageZero.Allocator
import StageZero.Allocator.Session
import StageZero.Bench
import StageZero.Board
import StageZero.Bytes
import StageZero.Cell
import StageZero.ColdStart
import StageZero.Delay
import StageZero.Error
import StageZero.Fault
import StageZero.Firmware
import StageZero.Handover
import StageZero.Heap
import StageZero.Layout
import StageZero.Machine
import StageZero.Proc
import StageZero.Proofs.Account
import StageZero.Proofs.AddressGrammar
import StageZero.Proofs.BlockContents
import StageZero.Proofs.BoardWords
import StageZero.Proofs.Boot
import StageZero.Proofs.CellBytes
import StageZero.Proofs.Endings
import StageZero.Proofs.ForwardCopy
import StageZero.Proofs.Growth
import StageZero.Proofs.HeapBlocks
import StageZero.Proofs.Jump
import StageZero.Proofs.Ledger
import StageZero.Proofs.LinkedImage
import StageZero.Proofs.PlacedWords
import StageZero.Proofs.Preservation
import StageZero.Proofs.ProgramHeap
import StageZero.Proofs.RamImage
import StageZero.Proofs.Simulation
import StageZero.Proofs.Spellings
import StageZero.Proofs.StartupTable
import StageZero.Proofs.TaskChain
import StageZero.Proofs.Underflow
import StageZero.Proofs.Validation
import StageZero.Proofs.Verdicts
import StageZero.Proofs.WarmReset
import StageZero.Proofs.WordSteps
import StageZero.Proofs.Words
import StageZero.Ram
import StageZero.Region
import StageZero.Rig
import StageZero.Script
import StageZero.VectorHeader
