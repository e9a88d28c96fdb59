import Levos.Scheduler
import Levos.Library.Stack

namespace Levos.Switch
open Library Scheduler

abbrev Word := UInt32

/-- The registers `pusha` saves, without `esp`. -/
structure General where
  eax : Word
  ebx : Word
  ecx : Word
  edx : Word
  esi : Word
  edi : Word
  ebp : Word
deriving DecidableEq

/-- The registers of the processor, without `esp`. -/
structure Registers where
  general : General
  ds : Word
  es : Word
  fs : Word
  gs : Word
  eip : Word
  cs : Word
  eflags : Word
  cr3 : Word
deriving DecidableEq

/-- The processor and the memory its stack pointer points into. Addresses are
counted in words, since stacks are only ever used by the word. -/
structure Core where
  regs : Registers
  stack : Stack Word

def pointer (a : Nat) : Word := UInt32.ofNat (4 * a)

namespace Core

def pushAll (c : Core) (ws : List Word) : Core := { c with stack := c.stack.pushAll ws }

/-- A `pop` into the register that `set` writes. -/
def popInto (set : Registers → Word → Registers) (c : Core) : Core :=
  ⟨set c.regs c.stack.top, c.stack.drop⟩

def setGeneral (c : Core) (g : General) : Core := { c with regs := { c.regs with general := g } }

/-- What the processor pushes when it enters an interrupt handler. -/
def interrupt (c : Core) : Core := c.pushAll [c.regs.eflags, c.regs.cs, c.regs.eip]

def pusha (c : Core) : Core :=
  let g := c.regs.general
  c.pushAll [g.eax, g.ecx, g.edx, g.ebx, pointer c.stack.sp, g.ebp, g.esi, g.edi]

/-- `LOAD_REGISTERS_STACK`; the place of `esp` is skipped. -/
def popa (c : Core) : Core :=
  c |> popInto (fun r w => { r with general.edi := w })
    |> popInto (fun r w => { r with general.esi := w })
    |> popInto (fun r w => { r with general.ebp := w })
    |> popInto (fun r _ => r)
    |> popInto (fun r w => { r with general.ebx := w })
    |> popInto (fun r w => { r with general.edx := w })
    |> popInto (fun r w => { r with general.ecx := w })
    |> popInto (fun r w => { r with general.eax := w })

def saveContext (c : Core) : Core :=
  let g := c.regs.general
  c.pushAll [g.eax, g.ebx, g.ecx, g.edx, g.esi, g.edi, g.ebp,
    c.regs.ds, c.regs.es, c.regs.fs, c.regs.gs]

/-- The `out` that acknowledges the timer loads its operands first. -/
def sendEoi (c : Core) : Core :=
  c.setGeneral { c.regs.general with edx := 0x20, eax := 0x20 }

/-- The pops of `switch_to_thread` and its `iret`. -/
def loadContext (c : Core) : Core :=
  c |> popInto (fun r w => { r with gs := w })
    |> popInto (fun r w => { r with fs := w })
    |> popInto (fun r w => { r with es := w })
    |> popInto (fun r w => { r with ds := w })
    |> popInto (fun r w => { r with general.ebp := w })
    |> popInto (fun r w => { r with general.edi := w })
    |> popInto (fun r w => { r with general.esi := w })
    |> sendEoi
    |> popInto (fun r w => { r with general.edx := w })
    |> popInto (fun r w => { r with general.ecx := w })
    |> popInto (fun r w => { r with general.ebx := w })
    |> popInto (fun r w => { r with general.eax := w })
    |> popInto (fun r w => { r with eip := w })
    |> popInto (fun r w => { r with cs := w })
    |> popInto (fun r w => { r with eflags := w })

/-- What `scheduler_switch` does to the processor before `switch_to_thread`: the
interrupt, the selection loops between `pusha` and `popa`, which leave `scratch`
in the registers, and `SWITCH_THREAD`, which saves two registers around its own
use of `eax`. -/
def throughScheduler (c : Core) (scratch : General) : Core :=
  let c := ((c.interrupt.pusha).setGeneral scratch).popa
  let g := c.regs.general
  (c.pushAll [g.eax, g.ebx]).setGeneral { g with eax := scratch.eax }
    |> popInto (fun r w => { r with general.ebx := w })
    |> popInto (fun r w => { r with general.eax := w })

end Core

/-- The registers and the stack pointer of a thread while it does not run. -/
structure Context where
  regs : Registers
  esp : Nat
deriving DecidableEq

/-- The fields of `struct thread` that a switch uses. Its `paged` points to the
field of the process named here. -/
structure Thread where
  ip : Word
  stack : Nat
  stacktop : Nat
  stackbot : Nat
  rstack : Nat
  paged : Nat
deriving DecidableEq

/-- The scheduler, the processor, the structs of the threads and the `paged`
fields of the processes. The last two fields are history: the context in which
each thread was when it was last switched out, and whether another directory has
been stored for its process since it was last given one. -/
structure Machine where
  sched : State
  core : Core
  threads : List Thread
  paged : List Word
  saved : Nat → Option Context
  replaced : Nat → Bool

/-- `THREAD_STACK_SIZE`, in words. -/
def threadStackSize : Nat := 1024

/-- The words `create_new_thread` and `sys_fork` put on a new stack, in their order. -/
def initialFrame (s : Word) (stacktop : Nat) : List Word :=
  [0x202, 0x8, s, 0, 0, 0, 0, 0, 0, pointer stacktop, 0x10, 0x10, 0x10, 0x10]

namespace Machine

/-- The context in which the running thread is. -/
def context (m : Machine) : Context := ⟨m.core.regs, m.core.stack.sp⟩

/-- `create_new_process_nothread`; `ARCH_SAVE_PAGED` stores cr3. -/
def createNewProcessNothread (m : Machine) : Machine :=
  { m with
    sched := m.sched.createNewProcessNothread
    paged := m.paged ++ [m.core.regs.cr3] }

def clearStack (mem : Nat → Word) (stackbot : Nat) : Nat → Word :=
  fun a => if stackbot ≤ a ∧ a < stackbot + threadStackSize then 0 else mem a

/-- `create_new_thread`, given the stack `malloc` returned. The stack pointer of
the running code is not touched. -/
def createNewThread (m : Machine) (h : Nat) (s : Word) (stackbot : Nat) : Option Machine :=
  match m.sched.createNewThread h with
  | none => none
  | some sched =>
    if sched.threads = m.sched.threads then some m
    else
      let stacktop := (stackbot + 1000) / 4 * 4
      let stack := (⟨clearStack m.core.stack.mem stackbot, stacktop⟩ : Stack Word).pushAll
        (initialFrame s stacktop)
      some { m with
        sched := sched
        core := { m.core with stack := ⟨stack.mem, m.core.stack.sp⟩ }
        threads := m.threads ++ [⟨s, stack.sp, stacktop, stackbot, 0, h⟩] }

/-- What `elf_start` does for a directory: the field of the process is set, and
cr3 holds the old one until the next switch. -/
def elfStart (m : Machine) (paged : Word) : Option Machine :=
  match m.sched.current with
  | none => none
  | some h => some { m with
      paged := m.paged.set h paged
      replaced := fun i => m.replaced i || m.threads[i]?.any (fun t => t.paged == h) }

/-- `parent->threads[0]` in `sys_fork`. -/
def parentThread (m : Machine) : Option Thread :=
  match m.sched.current.bind m.sched.proc with
  | none => none
  | some p => match p.threads.get 0 with
    | none => none
    | some i => m.threads[i]?

def copyStack (mem : Nat → Word) (stackbot rstack : Nat) : Nat → Word :=
  fun a =>
    if rstack ≤ a ∧ a < rstack + threadStackSize then mem (stackbot + (a - rstack)) else mem a

/-- `sys_fork`, given the directory of the child, what `read_eip` returns and the
stack `malloc` returned. Of the new thread `stacktop` and `stackbot` stay zero. -/
def sysFork (m : Machine) (pd eip : Word) (rstack : Nat) : Option Machine :=
  match m.parentThread with
  | none => none
  | some parent =>
    let child := m.sched.procs.length
    match (m.sched.createNewProcessNothread.createNewThread child).bind
        (fun sched => sched.schedulerAddProcess child) with
    | none => none
    | some sched =>
      let stack := (⟨copyStack m.core.stack.mem parent.stackbot rstack,
        rstack + m.core.stack.sp - parent.stackbot⟩ : Stack Word).pushAll (initialFrame eip 0)
      some { m with
        sched := sched
        core := { m.core with stack := ⟨stack.mem, m.core.stack.sp⟩ }
        threads := m.threads ++ [⟨eip, stack.sp, 0, 0, rstack, child⟩]
        paged := m.paged ++ [pd] }

/-- The first half of `switch_to_thread`: the registers go on the stack and the
stack pointer into `__old__thread`, if there is one. -/
def saveOld (m : Machine) : Machine :=
  match m.sched.oldThread with
  | none => m
  | some old =>
    let core := m.core.saveContext
    { m with
      core := core.setGeneral { core.regs.general with eax := pointer core.stack.sp }
      threads := m.threads.modify old (fun t => { t with stack := core.stack.sp }) }

/-- The second half: the directory and the stack of `__new__thread`, and from
that stack everything else. -/
def loadNew (m : Machine) : Option Machine :=
  match m.sched.newThread with
  | none => none
  | some new => match m.threads[new]? with
    | none => none
    | some t => match m.paged[t.paged]? with
      | none => none
      | some paged =>
        let regs := { m.core.regs with cr3 := paged, general.eax := pointer t.stack }
        some { m with
          core := Core.loadContext ⟨regs, ⟨m.core.stack.mem, t.stack⟩⟩
          replaced := Function.update m.replaced new false }

/-- `switch_to_thread`, entered with `__old__thread` and `__new__thread` set. -/
def switchToThread (m : Machine) : Option Machine := m.saveOld.loadNew

/-- The history of a switch: the running thread leaves in the context it has. -/
def record (m : Machine) : Nat → Option Context :=
  match m.sched.newThread with
  | none => m.saved
  | some old => Function.update m.saved old (some m.context)

/-- `scheduler_switch`, from the interrupt to the `iret`. -/
def schedulerSwitch (m : Machine) (scratch : General) : Option Machine :=
  match m.sched.schedulerSwitch with
  | none => none
  | some (_, sched) => switchToThread { m with
      sched := sched
      core := m.core.throughScheduler scratch
      saved := m.record }

/-- What the code that runs between two switches did: its registers, its stack
pointer and its stores. -/
def compute (m : Machine) (regs : Registers) (esp : Nat) (stores : List (Nat × Word)) : Machine :=
  { m with core := ⟨regs,
    ⟨stores.foldl (fun mem x => Function.update mem x.1 x.2) m.core.stack.mem, esp⟩⟩ }

end Machine

inductive Op
  | createNewProcessNothread
  | createNewThread (h : Nat) (s : Word) (stackbot : Nat)
  | schedulerAddProcess (h : Nat)
  | elfStart (paged : Word)
  | sysFork (pd eip : Word) (rstack : Nat)
  | compute (regs : Registers) (esp : Nat) (stores : List (Nat × Word))
  | schedulerSwitch (scratch : General)

namespace Machine

def step (m : Machine) : Op → Option Machine
  | .createNewProcessNothread => some m.createNewProcessNothread
  | .createNewThread h s stackbot => m.createNewThread h s stackbot
  | .schedulerAddProcess h =>
    (m.sched.schedulerAddProcess h).map (fun sched => { m with sched := sched })
  | .elfStart paged => m.elfStart paged
  | .sysFork pd eip rstack => m.sysFork pd eip rstack
  | .compute regs esp stores => some (m.compute regs esp stores)
  | .schedulerSwitch scratch => m.schedulerSwitch scratch

def boot (core : Core) : Machine := ⟨.boot, core, [], [], fun _ => none, fun _ => false⟩

end Machine

end Levos.Switch
