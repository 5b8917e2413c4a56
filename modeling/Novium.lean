import Novium.Outcome
import Novium.Relational
import Novium.ByteStore
import Novium.SmallStep
import Novium.RoundRobin
import Novium.Text
import Novium.Isa
import Novium.Encoding
import Novium.Registers
import Novium.Lanes
import Novium.Traps
import Novium.Mmu
import Novium.Devices
import Novium.Machine
import Novium.Rv32
import Novium.Decoder
import Novium.Lowering
import Novium.Handlers
import Novium.Emulator
import Novium.CApi
import Novium.Checkpoint
import Novium.Execution
import Novium.Frames
import Novium.Cycle
import Novium.Blocks
import Novium.RunFast
import Novium.BlockReplay
import Novium.Interrupts
import Novium.Coherence
import Novium.RegisterSafety
import Novium.GuestCode
import Novium.Frontend
import Novium.PageTables
import Novium.Tlb
import Novium.Isolation
import Novium.Sv39
import Novium.Mediation
import Novium.PreciseTraps
import Novium.ControlState
import Novium.Resumption
import Novium.Lockstep
import Novium.Course
import Novium.Retirement
import Novium.Dma
import Novium.Flags
import Novium.Aliasing
import Novium.StraightLine
import Novium.A64
import Novium.GuestSubset
import Novium.TilePrograms
import Novium.TileKernel
import Novium.ControlFlow
import Novium.Reset
import Novium.SaveRestore
import Novium.Breakpoints
import Novium.Histories
import Novium.Accounting
import Novium.ThrowingSteps
import Novium.StateInvariant
import Novium.Recency
import Novium.Cache
import Novium.Cluster
import Novium.CoreIndependence
import Novium.SharedMemory
import Novium.Charges
import Novium.ClusterProgress
import Novium.HostAcceleration
import Novium.TimingIndependence
import Novium.TrapReturn
import Novium.FaultReports
import Novium.Permissions
import Novium.FaultCauses
import Novium.Transfers
import Novium.DmaLength
import Novium.Timekeeping
import Novium.WarpScheduler
import Novium.TimerLine
import Novium.PricedPrograms
import Novium.CountedLoop
import Novium.Fabric
import Novium.MemoryController
import Novium.CacheHierarchy
import Novium.ReverseHistory
import Novium.Barriers
import Novium.WindowSafety
import Novium.Quanta
import Novium.GuestAsm
import Novium.Annotations
import Novium.LoaderFaults
import Novium.BlockFormation
import Novium.UartStream
import Novium.Tlm
import Novium.Slots
import Novium.Saturation
import Novium.Pipeline
import Novium.Printf
import Novium.Disassembly
import Novium.Listings
import Novium.TraceExport
import Novium.ConsoleTrace
import Novium.Unwatched
import Novium.DebugSession
import Novium.TraceReplay
import Novium.Workloads
import Novium.CoreMark
