import Levos.Dbus
import Levos.Kernel
import Levos.Library.Runs

namespace Levos.Interrupts

/-- The mutexes a section meets: `dbus_lock`, and the one `malloc` and `free` take. -/
inductive Lock
  | dbus
  | heap
deriving DecidableEq, Repr

/-- What of a section concerns the interrupt flag: the calls and returns of the
modelled functions, `interrupt_ctl`, and the mutexes that can stop it. -/
inductive Act
  | call
  | interruptCtl (e : Bool)
  | mutexLock (l : Lock)
  | mutexUnlock (l : Lock)
  | ret
deriving DecidableEq, Repr

/-- `__irq_enabled`, the mutexes and the flag of `unlock_all_mutexes`. The last two
fields are history: the interrupt state each open call was entered with, the
innermost first, and how many calls were open when the outermost section
disabled interrupts. -/
structure State where
  irqEnabled : Bool
  dbusLock : Bool
  heapLock : Bool
  allUnlocked : Bool
  calls : List Bool
  outermost : Option Nat
deriving DecidableEq, Repr

namespace State

def locked (s : State) : Lock → Bool
  | .dbus => s.dbusLock
  | .heap => s.heapLock

def setLocked (s : State) (b : Bool) : Lock → State
  | .dbus => { s with dbusLock := b }
  | .heap => { s with heapLock := b }

/-- The condition of `while(m->locked && !__all_unlocked)`. -/
def taken (s : State) (l : Lock) : Bool := s.locked l && !s.allUnlocked

/-- With interrupts off `schedule_noirq` does nothing, so `mutex_lock` waits for a
taken mutex for ever. With interrupts on its holder runs until it lets go. -/
def step (s : State) : Act → Option State
  | .call => some { s with calls := s.irqEnabled :: s.calls }
  | .interruptCtl true => some { s with irqEnabled := true, outermost := none }
  | .interruptCtl false => some
    { s with irqEnabled := false, outermost := s.outermost.or (some s.calls.length) }
  | .mutexLock l => if s.taken l && !s.irqEnabled then none else some (s.setLocked true l)
  | .mutexUnlock l => some (s.setLocked false l)
  | .ret => some { s with calls := s.calls.tail }

def start (irq dbus heap allUnlocked : Bool) : State :=
  ⟨irq, dbus, heap, allUnlocked, [], none⟩

end State

def malloc : List Act := [.mutexLock .heap, .mutexUnlock .heap]
def free : List Act := [.mutexLock .heap, .mutexUnlock .heap]

def frees (n : Nat) : List Act := (List.replicate n free).flatten

/-- A function that switches interrupts off and, on every exit, on. -/
def masked (body : List Act) : List Act :=
  ([.call, .interruptCtl false] : List Act) ++ body ++ [.interruptCtl true, .ret]

/-- The checks and allocations of `create_new_thread` for a process with that many
threads, or for a null pointer. -/
def threadBody (threadslen : Option Nat) (s : Nat) (fail : Option MallocSite) : List Act :=
  if threadslen = none ∨ s = 0 then []
  else if threadslen.getD 0 + 1 > maxThreads then []
  else if fail = some .thread then malloc
  else if fail = some .stack then malloc ++ malloc ++ free
  else malloc ++ malloc

/-- `create_new_thread`: only with `a` it is a section of its own. -/
def createNewThread (threadslen : Option Nat) (s : Nat) (a : Bool) (fail : Option MallocSite) :
    List Act :=
  if a then masked (threadBody threadslen s fail)
  else ([.call] : List Act) ++ threadBody threadslen s fail ++ [.ret]

/-- `create_new_process_nothread`. Its `vfs_open` does not touch the flag. -/
def createNewProcessNothread (fail : Option MallocSite) : List Act :=
  masked (if fail = some .process then malloc
    else if fail = some .name then malloc ++ malloc ++ free
    else malloc ++ malloc)

/-- The checks and allocations of `create_new_process` behind the first one; its thread
is created with `a` zero. -/
def processBody (addr : Nat) (fail : Option MallocSite) : List Act :=
  if fail = some .process then []
  else if fail = some .name then malloc ++ free
  else if addr = 0 ∨ fail = some .thread ∨ fail = some .stack then
    malloc ++ createNewThread (some 0) addr false fail ++ frees 2
  else malloc ++ createNewThread (some 0) addr false fail

def createNewProcess (addr : Nat) (fail : Option MallocSite) : List Act :=
  masked (malloc ++ processBody addr fail)

/-- `scheduler_add_process`: every exit enables interrupts. -/
def schedulerAddProcess : List Act := masked []

def dbusEventInitKilled : Int := 2

/-- What the sections read: of the running process its pid and the length of its
allocation table, the listeners, and which allocation fails for the handler of
each slot. `stub` is the address of `__dbus_stub`. -/
structure Setting where
  pid : Nat
  allocs : Nat
  listeners : List (Option Listener)
  stub : Nat
  fails : Nat → Option MallocSite

namespace Setting

/-- The loop of `dbus_send_message` from slot `i` on. -/
def handlers (c : Setting) (msg : Int) (i : Nat) : List (Option Listener) → List Act
  | [] => []
  | none :: slots => c.handlers msg (i + 1) slots
  | some l :: slots =>
    if l.msg = msg then
      createNewProcess c.stub (c.fails i) ++ schedulerAddProcess ++ c.handlers msg (i + 1) slots
    else c.handlers msg (i + 1) slots

def dbusSendMessage (c : Setting) (msg : Int) : List Act :=
  ([.call, .mutexLock .dbus] : List Act) ++ c.handlers msg 0 c.listeners ++
    [.mutexLock .dbus, .mutexUnlock .dbus, .ret]

/-- `scheduler_kill_self`: the name, the stack, the recorded allocations and the
struct are freed. The `schedule_noirq` at its end does not return. -/
def schedulerKillSelf (c : Setting) : List Act :=
  ([.call, .interruptCtl false] : List Act) ++
    ((if c.pid = 2 then c.dbusSendMessage dbusEventInitKilled else []) ++
      (frees (c.allocs + 3) ++ [.interruptCtl true]))

def schedulerKillPid (c : Setting) (pid : Nat) : List Act :=
  ([.call, .interruptCtl false] : List Act) ++
    if pid = c.pid then c.schedulerKillSelf else [.interruptCtl true, .ret]

end Setting

/-- A call of a function that disables interrupts, from code that does not. -/
inductive Section
  | createNewThread (threadslen : Option Nat) (s : Nat) (fail : Option MallocSite)
  | createNewProcess (addr : Nat) (fail : Option MallocSite)
  | createNewProcessNothread (fail : Option MallocSite)
  | schedulerAddProcess
  | schedulerKillPid (pid : Nat)
  | schedulerKillSelf
deriving DecidableEq, Repr

def Section.code (c : Setting) : Section → List Act
  | .createNewThread threadslen s fail => Interrupts.createNewThread threadslen s true fail
  | .createNewProcess addr fail => Interrupts.createNewProcess addr fail
  | .createNewProcessNothread fail => Interrupts.createNewProcessNothread fail
  | .schedulerAddProcess => Interrupts.schedulerAddProcess
  | .schedulerKillPid pid => c.schedulerKillPid pid
  | .schedulerKillSelf => c.schedulerKillSelf

end Levos.Interrupts
