import Nova.Theory.Words
import Nova.Theory.Lists
import Nova.Theory.Radix
import Nova.Theory.Chunks
import Nova.Theory.Runs
import Nova.Kernel.PtabFormat
import Nova.Kernel.Pagetable
import Nova.Kernel.PtabEntry
import Nova.Kernel.PtabWalk
import Nova.Kernel.PtabUpdate
import Nova.Kernel.PtabRefine
import Nova.Kernel.PtabTransparent
import Nova.Kernel.PtabLimit
import Nova.Kernel.PtabPages
import Nova.Kernel.SpaceMem
import Nova.Kernel.UserAccess
import Nova.Kernel.Isolation
import Nova.Kernel.PtabShare
import Nova.Kernel.ShareFrom
import Nova.Kernel.SpaceObj
import Nova.Kernel.ObjDelegate
import Nova.Kernel.Syscall
import Nova.Kernel.Authority
import Nova.Kernel.Downcast
import Nova.Kernel.Confinement
import Nova.Theory.Bitmaps
import Nova.Kernel.BitSpaces
import Nova.Kernel.Bits
import Nova.Kernel.Buddy
import Nova.Kernel.BuddyGeometry
import Nova.Theory.Links
import Nova.Theory.Chains
import Nova.Kernel.Slab
import Nova.Kernel.SlabCapability
import Nova.Kernel.Machine
import Nova.Kernel.Partners
import Nova.Kernel.Places
import Nova.Kernel.Moves
import Nova.Kernel.Semaphore
import Nova.Kernel.Wakeup
import Nova.Kernel.Priority
import Nova.Kernel.Budget
import Nova.Kernel.Donation
import Nova.Kernel.Safety
import Nova.Kernel.Ipc
import Nova.Kernel.Continuation
import Nova.Kernel.Abort
import Nova.Kernel.Sync
import Nova.Kernel.Scheduling
import Nova.Kernel.Timeout
import Nova.Kernel.Lapic
import Nova.Kernel.Ranges
import Nova.Kernel.PdAttach
import Nova.Kernel.Rcu
import Nova.Kernel.RcuGrace
import Nova.Kernel.RcuWords
import Nova.Kernel.Cos
import Nova.Kernel.Vmcs
import Nova.Kernel.Fpu
import Nova.Kernel.Zones
import Nova.Kernel.Entry
import Nova.Kernel.VmxEntry
import Nova.Kernel.ArmRegs
import Nova.Kernel.ArmEntry
import Nova.Kernel.Recall
import Nova.Kernel.Shootdown
import Nova.Theory.Transfers
import Nova.Kernel.VmxTransfer
import Nova.Kernel.StateTransfer
import Nova.Theory.Shadow
import Nova.Kernel.ControlRegs
import Nova.Kernel.VmxControls
import Nova.Kernel.ArmTransfer
import Nova.Theory.Rings
import Nova.Kernel.Queue
import Nova.Kernel.Spinlock
import Nova.Theory.Tokens
import Nova.Kernel.Cmdline
import Nova.Kernel.ConsoleMbuf
import Nova.Theory.Walks
import Nova.Kernel.AcpiTables
import Nova.Kernel.Factory
import Nova.Kernel.Ledger
import Nova.Kernel.Creation
import Nova.Kernel.Atomicity
import Nova.Kernel.Fairness
import Nova.Theory.Barriers
import Nova.Kernel.Power
import Nova.Kernel.Release
import Nova.Theory.Overlay
import Nova.Kernel.RootImage
import Nova.Kernel.Dma
