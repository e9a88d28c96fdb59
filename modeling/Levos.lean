import Levos.Library.Runs
import Levos.Kernel
import Levos.Proofs.Phymem
import Levos.Proofs.Kernel
import Levos.Proofs.Pids
import Levos.Proofs.Handles
import Levos.Proofs.Ledger
import Levos.Proofs.Isolation
import Levos.Heap
import Levos.Proofs.Heap
import Levos.Dbus
import Levos.Library.Lists
import Levos.Proofs.Dbus
import Levos.Ext2
import Levos.Directory
import Levos.Proofs.Entries
import Levos.Proofs.Lookup
import Levos.Proofs.Reading
import Levos.Proofs.Listing
import Levos.Elf
import Levos.Fork
import Levos.Library.Cyclic
import Levos.Library.Stack
import Levos.Mutex
import Levos.Proofs.Elf
import Levos.Proofs.Exits
import Levos.Proofs.Fork
import Levos.Proofs.Mounts
import Levos.Proofs.Mutex
import Levos.Proofs.Refinement
import Levos.Proofs.Switch
import Levos.Proofs.Syscalls
import Levos.Disk
import Levos.Driver
import Levos.Initrd
import Levos.Kheap
import Levos.Proofs.Allocation
import Levos.Proofs.Driver
import Levos.Proofs.Holders
import Levos.Proofs.Ids
import Levos.Proofs.Initrd
import Levos.Proofs.Kheap
import Levos.Proofs.Layout
import Levos.Proofs.Resources
import Levos.Proofs.Textmode
import Levos.Console
import Levos.Input
import Levos.Malloc
import Levos.Mounting
import Levos.Procfs
import Levos.Proofs.Chains
import Levos.Proofs.Console
import Levos.Proofs.Input
import Levos.Proofs.Malloc
import Levos.Proofs.Mounting
import Levos.Proofs.Procfs
import Levos.Proofs.Recording
import Levos.Proofs.Walks
import Levos.FullRead
import Levos.PageMemory
import Levos.Probe
import Levos.Proofs.Images
import Levos.Proofs.PageMemory
import Levos.Proofs.Positions
import Levos.Proofs.Probe
import Levos.Proofs.ReadLine
import Levos.Proofs.ReplacePage
import Levos.Proofs.Stat
import Levos.Descriptors
import Levos.Interrupts
import Levos.Opening
import Levos.Proofs.Descriptors
import Levos.Proofs.Exist
import Levos.Proofs.Grid
import Levos.Proofs.Interrupts
import Levos.Floppy
import Levos.Itoa
import Levos.Keyboard
import Levos.Ne2k
import Levos.Pci
import Levos.Printk
import Levos.Proofs.BitmapLaws
import Levos.Proofs.Floppy
import Levos.Proofs.FloppyRead
import Levos.Proofs.Itoa
import Levos.Proofs.Keyboard
import Levos.Proofs.Ne2k
import Levos.Proofs.Pci
import Levos.Proofs.PciProbe
import Levos.Proofs.Printk
import Levos.DisplayMemory
import Levos.Proofs.Shifts
import Levos.Library.Answers
import Levos.Library.Linked
import Levos.Library.Spaced
import Levos.Proofs.Blocks
import Levos.Proofs.Freeing
import Levos.Proofs.HeapRuns
import Levos.Proofs.Calls
import Levos.Proofs.FloppyReplies
