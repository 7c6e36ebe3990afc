import KernelCore.Heap.Layout
import KernelCore.Kernel.Interrupt
import KernelCore.Proofs.Heap.Tiling
import KernelCore.Proofs.Heap.Transitions
import KernelCore.Proofs.Heap.Integrity
import KernelCore.Proofs.Kernel.Scheduling
import KernelCore.Proofs.Kernel.SchedulerRuns
import KernelCore.Proofs.Frame.Ledger
import KernelCore.Proofs.Frame.Counts
import KernelCore.Proofs.Frame.Regions
import KernelCore.Proofs.Paging.Accounting
import KernelCore.Proofs.Kernel.Balance
import KernelCore.Proofs.Kernel.Accounts
import KernelCore.Proofs.Paging.Entries
import KernelCore.Proofs.Paging.Tree
import KernelCore.Proofs.Paging.Mapping
import KernelCore.Proofs.Paging.Spaces
import KernelCore.Proofs.Paging.Progress
import KernelCore.Proofs.Paging.Refinement
import KernelCore.Proofs.Paging.Turnover
import KernelCore.Proofs.Paging.Estate
import KernelCore.Proofs.Paging.Roots
import KernelCore.Proofs.Paging.Layers
import KernelCore.Proofs.Paging.Handover
import KernelCore.Proofs.Paging.Sharing
import KernelCore.Proofs.Kernel.Courses
import KernelCore.Proofs.Kernel.Registers
import KernelCore.Proofs.Kernel.Buffers
import KernelCore.Proofs.Kernel.Survival
import KernelCore.Proofs.Kernel.Turns
import KernelCore.Proofs.Kernel.Answers
import KernelCore.Proofs.Frame.Bounds
import KernelCore.Proofs.Frame.Lending
import KernelCore.Proofs.Paging.Views
import KernelCore.Proofs.Paging.Isolation
import KernelCore.Proofs.Kernel.Isolation
import KernelCore.Proofs.Kernel.Delivery
import KernelCore.Proofs.Frame.NextFit
import KernelCore.Proofs.Frame.Setup
import KernelCore.Proofs.Frame.Supply
import KernelCore.Proofs.Heap.Room
import KernelCore.Proofs.Heap.Handles
import KernelCore.Proofs.Heap.FirstFit
import KernelCore.Proofs.Paging.Walks
import KernelCore.Proofs.Kernel.Linking
import KernelCore.Proofs.Kernel.Lifecycle
import KernelCore.Proofs.Kernel.Lineup
import KernelCore.Proofs.Kernel.Provisions
import KernelCore.Proofs.Kernel.Effects
import KernelCore.Proofs.Kernel.Creation
import KernelCore.Proofs.Kernel.Departure
import KernelCore.Proofs.Kernel.Residue
import KernelCore.Proofs.Heap.Undoing
import KernelCore.Proofs.Heap.Placement
import KernelCore.Proofs.Paging.Copies
import KernelCore.Proofs.Paging.Demand
import KernelCore.Proofs.Paging.Regions
import KernelCore.Proofs.Kernel.Rotation
import KernelCore.Proofs.Heap.Corruption
import KernelCore.Proofs.Paging.Permissions
import KernelCore.Proofs.Paging.Protection
