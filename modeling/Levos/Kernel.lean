import Levos.Errno
import Levos.Library.Runs
import Levos.Paging
import Levos.Phymem

namespace Levos

def maxThreads : Nat := 16
def maxProcesses : Nat := 32
def maxFilehandles : Nat := 128
def maxAllocationsPerProcess : Nat := 32

/-- The fields of `struct process` the modelled calls read or write. The last
one is history: how many pids had been given out before this one. -/
structure Process where
  lastthread : Nat
  threadslen : Nat
  paged : PageDirectory
  pid : Nat
  palloc : Nat
  pallocLen : Nat
  execLen : Nat
  openHandles : Nat
  allocs : Nat
  allocationTable : List Nat
  filehandles : Nat
  born : Nat

/-- The globals of the scheduler and of the frame allocator, and the words of
kernel memory, which every directory maps alike. A `struct process *` is its
place in the order of creation; `none` in `procs` is a struct that has been
freed or that nothing points to any more. The last three fields are history:
how many pids have been given out, which frames are allocated and not yet
freed, and what each open returned. -/
structure Kernel where
  phymem : Phymem
  memory : Nat → Nat
  procs : List (Option Process)
  processes : List (Option Nat)
  lastProcess : Nat
  current : Option Nat
  lastpid : Nat
  drawn : Nat
  live : List (Nat × Nat)
  opened : List (Nat × Nat × Nat)

/-- The `phymem_free` calls a step makes, each with the kernel it is made in,
whether the step ends in a page fault, and the state after it if the model can
follow the source there. -/
structure Effect where
  frees : List (Kernel × Nat × Nat)
  fault : Bool
  next : Option Kernel

def Effect.of (k : Kernel) : Effect := ⟨[], false, some k⟩
def Effect.stuck : Effect := ⟨[], false, none⟩

def procAt (procs : List (Option Process)) (h : Nat) : Option Process := procs[h]?.join

namespace Kernel

def proc (k : Kernel) (h : Nat) : Option Process := procAt k.procs h

def setProc (k : Kernel) (h : Nat) (p : Process) : Kernel :=
  { k with procs := k.procs.set h (some p) }

/-- `get_process()`, with its handle. -/
def getProcess (k : Kernel) : Option (Nat × Process) :=
  match k.current with
  | none => none
  | some h => (k.proc h).map (fun p => (h, p))

/-- The directory in cr3, which `ARCH_SAVE_PAGED` stores. -/
def cr3 (k : Kernel) : PageDirectory :=
  match k.getProcess with
  | none => bootDirectory
  | some (_, p) => p.paged

end Kernel

/-- A `malloc` inside the creation of a process that returns no memory. -/
inductive MallocSite
  | process
  | name
  | thread
  | stack
deriving DecidableEq, Repr

/-- `create_new_thread` on a struct of its own; `none` is its error return. -/
def createNewThread (p : Process) (s : Nat) (fail : Option MallocSite) : Option Process :=
  if s = 0 then none
  else if p.threadslen + 1 > maxThreads then none
  else if fail = some .thread ∨ fail = some .stack then none
  else some { p with threadslen := p.threadslen + 1 }

/-- `post_allocation`. The table has room for 32 entries but the guard lets a
33rd through, which lands in the next field, `filehandles`. -/
def postAllocation (p : Process) (base : Nat) : Option Process :=
  if base = 0 then none
  else if p.allocs > maxAllocationsPerProcess then none
  else if p.allocs = maxAllocationsPerProcess then
    some { p with filehandles := base, allocs := p.allocs + 1 }
  else some { p with
    allocationTable := p.allocationTable.set p.allocs base, allocs := p.allocs + 1 }

/-- What `post_allocation` returns for a process that is not null. -/
def postAllocationResult (p : Process) (base : Nat) : Int :=
  if base = 0 then -einval
  else if p.allocs > maxAllocationsPerProcess then -enospc
  else 0

/-- The struct after the call; an error return leaves it as it was. -/
def Process.afterAllocation (p : Process) (base : Nat) : Process :=
  (postAllocation p base).getD p

namespace Kernel

/-- The struct both creation functions prepare: zeroed, with the directory of
the running process and the next pid. -/
def newProcess (k : Kernel) : Process :=
  { lastthread := 0, threadslen := 0, paged := k.cr3, pid := k.lastpid, palloc := 0,
    pallocLen := 0, execLen := 0, openHandles := 0, allocs := 0,
    allocationTable := List.replicate maxAllocationsPerProcess 0, filehandles := 0,
    born := k.drawn }

def nextPid (k : Kernel) : Kernel :=
  { k with lastpid := (k.lastpid + 1) % 2 ^ 8, drawn := k.drawn + 1 }

def pushProcess (k : Kernel) (p : Process) : Kernel := { k with procs := k.procs ++ [some p] }

/-- `create_new_process_nothread`; the new struct is the last of `procs`. -/
def createNewProcessNothread (k : Kernel) (fail : Option MallocSite) : Option Kernel :=
  if fail = some .process ∨ fail = some .name then none
  else some (k.nextPid.pushProcess k.newProcess)

/-- `create_new_process`. The pid is used up even when the thread fails. -/
def createNewProcess (k : Kernel) (addr : Nat) (fail : Option MallocSite) : Kernel :=
  if fail = some .process ∨ fail = some .name then k
  else match createNewThread k.newProcess addr fail with
    | none => k.nextPid
    | some p => k.nextPid.pushProcess p

/-- `scheduler_add_process`: the first empty slot, and the pid or zero. -/
def schedulerAddProcess (k : Kernel) (h : Nat) : Kernel × Nat :=
  match k.proc h with
  | none => (k, 0)
  | some p =>
    if p.threadslen = 0 then (k, 0)
    else match k.processes.findIdx? (· == none) with
      | none => (k, 0)
      | some i => ({ k with processes := k.processes.set i (some h) }, p.pid)

/-- `phymem_alloc`: the frames, and what becomes of its `memset`, which takes the
physical address of the frames for a virtual one. -/
def allocFrames (k : Kernel) (len : Nat) : Option (Nat × Access × Kernel) :=
  (phymemAlloc k.phymem len).map (fun (p, m) => (p, access k.cr3 (Touch.stores p len),
    { k with phymem := m, live := (p, len) :: k.live }))

/-- `phymem_free`. What it is given is live no more, however often it was. -/
def freeFrames (k : Kernel) (ptr len : Nat) : Effect :=
  ⟨[(k, ptr, len)], false, (phymemFree k.phymem ptr len).map
    (fun m => { k with phymem := m, live := k.live.filter (· != (ptr, len)) })⟩

/-- The exiting process is off the table and its struct is gone. -/
def leaveTable (k : Kernel) (h : Nat) : Kernel :=
  { k with
    processes := k.processes.replace (some h) none
    procs := k.procs.set h none
    current := none }

/-- `scheduler_kill_self`, up to the frees of heap blocks. The frames are given
back whether or not the process was ever given any. -/
def schedulerKillSelf (k : Kernel) : Effect :=
  match k.getProcess with
  | none => .stuck
  | some (h, p) => (k.leaveTable h).freeFrames p.palloc p.pallocLen

/-- `exc_pf`: the running process is at its end. -/
def excPf (k : Kernel) : Effect := { k.schedulerKillSelf with fault := true }

def pidAt (k : Kernel) (slot : Option Nat) : Option Nat :=
  (slot.bind k.proc).map Process.pid

/-- The process is on the table under the pid. -/
def onTable (k : Kernel) (pid h : Nat) : Bool :=
  k.processes.contains (some h) && k.pidAt (some h) == some pid

/-- `scheduler_kill_pid`: another process is only taken off the table, and its
struct is left with nothing that points to it. -/
def schedulerKillPid (k : Kernel) (pid : Nat) : Effect :=
  match k.getProcess with
  | none => .stuck
  | some (_, p) =>
    if pid = p.pid then k.schedulerKillSelf
    else .of { k with
      processes := k.processes.map (fun slot => if k.pidAt slot = some pid then none else slot)
      procs := k.procs.mapIdx (fun h q => if k.onTable pid h then none else q) }

def isPidRunning (k : Kernel) (pid : Nat) : Bool :=
  k.processes.any (fun slot => k.pidAt slot == some pid)

/-- The process loop of `scheduler_switch`; it stops after one round of the
table at the latest, or not at all. -/
def nextProcess (slots : List (Option Nat)) : Nat → Nat → Option (Nat × Nat)
  | 0, _ => none
  | fuel + 1, last =>
    let i := if last + 1 ≥ maxProcesses then 0 else last + 1
    match slots[i]?.join with
    | some h => some (i, h)
    | none => nextProcess slots fuel i

/-- The thread loop: exactly the first `threadslen` entries are non-null. -/
def nextThread (threadslen : Nat) : Nat → Nat → Option Nat
  | 0, _ => none
  | fuel + 1, last =>
    let i := if last + 1 ≥ maxThreads then 0 else last + 1
    if i < threadslen then some i else nextThread threadslen fuel i

def schedulerSwitch (k : Kernel) : Option Kernel :=
  match nextProcess k.processes maxProcesses k.lastProcess with
  | none => none
  | some (i, h) =>
    match k.proc h with
    | none => none
    | some p => (nextThread p.threadslen maxThreads p.lastthread).map (fun t =>
        { k.setProc h { p with lastthread := t } with lastProcess := i, current := some h })

/-- `malloc` by the running process, in a case that calls `post_allocation`. -/
def recordAllocation (k : Kernel) (base : Nat) : Kernel :=
  match k.getProcess with
  | none => k
  | some (h, p) => match postAllocation p base with
    | none => k
    | some p' => k.setProc h p'

end Kernel

/-- The fields of an `elf_program_header_t` that `elf_start` reads. -/
structure Segment where
  pType : Nat
  pOffset : Nat
  pVaddr : Nat
  pFilesz : Nat
deriving DecidableEq, Repr

/-- What `elf_start` looks at: the address and the length of the buffer, the
header in it, and the table that the header points to. -/
structure Image where
  buf : Nat
  esize : Nat
  eType : Nat
  ePhoff : Nat
  segments : List Segment
deriving DecidableEq, Repr

namespace Image

/-- The segment loop reaches the end of the table. -/
def accepted (img : Image) : Bool := img.segments.all (fun s => s.pType == 0 || s.pType == 1)

/-- The memory the segment loop touches, from the program header at `ph` on. -/
def touchesFrom (buf : Nat) : Nat → List Segment → List Touch
  | _, [] => []
  | ph, s :: segments =>
    Touch.loads ph 4 ++
      match s.pType with
      | 0 => touchesFrom buf (ph + 32) segments
      | 1 =>
        Touch.loads (ph + 4) 16 ++ Touch.copies s.pVaddr (buf + s.pOffset) s.pFilesz ++
          touchesFrom buf (ph + 32) segments
      | _ => []

def touches (img : Image) : List Touch := touchesFrom img.buf (img.buf + img.ePhoff) img.segments

end Image

/-- What `sys_fork` comes upon: the address of the new directory and the entries
of it that are not written, the stack pointer saved for the parent, and the word
that `replace_page` takes for the address of a page table. -/
structure ForkSite where
  paged : Nat
  rest : PageDirectory
  stack : Nat
  table : Nat

namespace Kernel

/-- `elf_start`. The old frames go back only if there were any and the segment
loop got through. -/
def elfStart (k : Kernel) (img : Image) (rest : PageDirectory) : Effect :=
  match k.getProcess with
  | none => .stuck
  | some (h, p) =>
    if img.eType ≠ 2 then .of k
    else match k.allocFrames img.esize with
      | none => .stuck
      | some (_, .wild, _) => .stuck
      | some (_, .fault, k') => k'.excPf
      | some (palloc, .done, k') =>
        let paged := createNewPageDirectory rest 0x400000 palloc
        let k'' := k'.setProc h { p with
          paged := paged
          palloc := palloc
          pallocLen := img.esize
          execLen := img.esize }
        match access paged img.touches with
        | .wild => .stuck
        | .fault => k''.excPf
        | .done =>
          if img.accepted = false then .of k''
          else if p.palloc = 0 then .of k''
          else k''.freeFrames p.palloc p.pallocLen

/-- The memory `sys_fork` touches after the child has its frames: the image of the
parent, that of the child, and in `replace_page` an entry of a directory and one of
a table. The buffer in between and the stacks lie in the kernel heap. -/
def forkAccess (parent child : Process) (f : ForkSite) : Access :=
  (access parent.paged (Touch.loads 0x400000 parent.pallocLen)).andThen
    ((access child.paged (Touch.stores 0x400000 child.pallocLen)).andThen
      (access parent.paged (Touch.loads (f.paged + 4 * (f.stack >>> 22)) 4 ++
        Touch.stores (f.table + 4 * (f.stack % 0x400000)) 4)))

/-- `sys_fork`. A child that is not put on the table is left behind. -/
def sysFork (k : Kernel) (f : ForkSite) : Effect :=
  match k.getProcess with
  | none => .stuck
  | some (_, parent) =>
    match k.allocFrames parent.execLen with
    | none => .stuck
    | some (_, .wild, _) => .stuck
    | some (_, .fault, k') => (k'.nextPid.pushProcess k.newProcess).excPf
    | some (palloc, .done, k') =>
      let child := { k.newProcess with
        paged := createNewPageDirectory f.rest 0x400000 palloc
        palloc := palloc
        pallocLen := parent.execLen
        execLen := parent.execLen }
      match forkAccess parent child f with
      | .wild => .stuck
      | .fault => (k'.nextPid.pushProcess child).excPf
      | .done =>
        .of ((k'.nextPid.pushProcess { child with threadslen := 1 }).schedulerAddProcess
          k.procs.length).1

def oRdonly : Nat := 0

/-- `sys_open`, given what `vfs_open` returned: the state and the result. -/
def sysOpen (k : Kernel) (flags : Nat) (fl : Option Nat) : Option (Kernel × Int) :=
  if flags ≠ oRdonly then some (k, -5)
  else match k.getProcess with
    | none => none
    | some (h, p) =>
      if p.openHandles ≥ maxFilehandles then some (k, -9)
      else match fl with
        | none => some (k, -7)
        | some fl =>
          some ({ k.setProc h { p with openHandles := p.openHandles + 1 } with
            memory := Function.update k.memory (p.filehandles + 4 * p.openHandles) fl
            opened := (h, p.openHandles + 3, fl) :: k.opened }, p.openHandles + 3)

/-- The file `sys_read`, `sys_write` and `sys_readdir` take for a descriptor. -/
def fileOf (k : Kernel) (p : Process) (fd : Nat) : Nat := k.memory (p.filehandles + 4 * (fd - 3))

end Kernel

inductive KernelOp
  | createNewProcess (addr : Nat) (fail : Option MallocSite)
  | createNewProcessNothread (fail : Option MallocSite)
  | schedulerAddProcess (h : Nat)
  | elfStart (img : Image) (rest : PageDirectory)
  | sysFork (f : ForkSite)
  | schedulerKillSelf
  | schedulerKillPid (pid : Nat)
  | schedulerSwitch
  | postAllocation (base : Nat)
  | sysOpen (flags : Nat) (fl : Option Nat)

namespace Kernel

/-- One step of the kernel. A process is put on the table once, by the code
that has just created it. -/
def effect (k : Kernel) : KernelOp → Effect
  | .createNewProcess addr fail => .of (k.createNewProcess addr fail)
  | .createNewProcessNothread fail => .of ((k.createNewProcessNothread fail).getD k)
  | .schedulerAddProcess h =>
    if some h ∈ k.processes then .stuck else .of (k.schedulerAddProcess h).1
  | .elfStart img rest => k.elfStart img rest
  | .sysFork f => k.sysFork f
  | .schedulerKillSelf => k.schedulerKillSelf
  | .schedulerKillPid pid => k.schedulerKillPid pid
  | .schedulerSwitch => ⟨[], false, k.schedulerSwitch⟩
  | .postAllocation base => .of (k.recordAllocation base)
  | .sysOpen flags fl => ⟨[], false, (k.sysOpen flags fl).map Prod.fst⟩

def step (k : Kernel) (op : KernelOp) : Option Kernel := (k.effect op).next

/-- `sys_waitpid`, given what runs during each `schedule_noirq`; `none` is a call that
still waits at the end. -/
def sysWaitpid (pid : Nat) : List (List KernelOp) → Kernel → Option Kernel
  | [], k => if k.isPidRunning pid then none else some k
  | turn :: turns, k =>
    if k.isPidRunning pid then (Library.run step k turn).bind (sysWaitpid pid turns) else some k

/-- The kernel when `scheduler_init` has cleared the table, on a machine with
memory up to `stop`. -/
def boot (stop : Nat) (memory : Nat → Nat) : Option Kernel :=
  (phymemInitLevelTwo (phymemInitLevelOne .boot physStart) stop).map (fun m =>
    ⟨m, memory, [], List.replicate maxProcesses none, 0, none, 0, 0, [], []⟩)

end Kernel

end Levos
