import Z80.Word
import Z80.Flags
import Z80.Alu
import Z80.LineState
import Z80.Registers
import Z80.RegisterName
import Z80.Memory
import Z80.Bus.Basic
import Z80.Bus.Static
import Z80.Bus.Flat
import Z80.Bus.Logged
import Z80.Bus.Banked
import Z80.Daisy.StateLatch
import Z80.Daisy.Peripheral
import Z80.Daisy.Chain
import Z80.Cpu
import Z80.RegisterAccess
import Z80.Instr
import Z80.Timing
import Z80.Decode
import Z80.Machine
import Z80.Fetch
import Z80.Block
import Z80.Execute
import Z80.Step
import Z80.Interrupt
import Z80.Accelerate
import Z80.Run
import Z80.Timing.Table
import Z80.Context
import Z80.Query
import Z80.Host
import Z80.Proofs.Frame
import Z80.Proofs.Relabel
import Z80.Proofs.Boundary
import Z80.Proofs.Accounting
import Z80.Proofs.Reach
import Z80.Proofs.Stream
import Z80.Proofs.Pages
import Z80.Proofs.Opcodes
import Z80.Proofs.Traces
import Z80.Proofs.Fetches
import Z80.Proofs.Path
import Z80.Proofs.Loops
import Z80.Proofs.Acceleration
import Z80.Proofs.History
import Z80.Proofs.Slices
import Z80.Proofs.Image
import Z80.Proofs.ChainRange
import Z80.Proofs.Snapshot
import Z80.Proofs.Codec
import Z80.Proofs.System
import Z80.Proofs.Latches
import Z80.Proofs.Rounds
import Z80.Proofs.Chronicle
import Z80.Proofs.LatchLaws
import Z80.Proofs.Gating
import Z80.Proofs.ChainSteps
import Z80.Proofs.Requests
import Z80.Proofs.Devices
import Z80.Proofs.Polls
import Z80.Proofs.Nesting
import Z80.Proofs.Withdrawal
import Z80.Proofs.Modes
import Z80.Proofs.Faultless
import Z80.Proofs.Banks
import Z80.Proofs.Exchange
import Z80.Proofs.Cells
import Z80.Proofs.Displaced
import Z80.Proofs.Blocks
import Z80.Proofs.Copying
import Z80.Proofs.Searching
import Z80.Proofs.Transferring
import Z80.Proofs.Prefixes
import Z80.Proofs.Service
import Z80.Proofs.Accesses
import Z80.Proofs.Refresh
import Z80.Proofs.Carries
import Z80.Proofs.Halves
import Z80.Proofs.Ripple
import Z80.Proofs.Decimal
import Z80.Proofs.Restore
import Z80.Proofs.Arbitration
import Z80.Proofs.Pointers
import Z80.Proofs.Reserved
import Z80.Proofs.RegisterLaws
import Z80.Proofs.Stack
import Z80.Proofs.Queries
import Z80.Proofs.Ranges
import Z80.Proofs.ExactFlags
import Z80.Proofs.Charges
import Z80.Proofs.IndexedPage
