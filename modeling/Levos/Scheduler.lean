import Levos.Kernel
import Levos.Library.Cyclic
import Levos.Library.Runs

namespace Levos.Scheduler
open Library

/-- The fields of `struct process` that choose a thread or find a process. -/
structure Process where
  lastthread : UInt8
  threadslen : Nat
  threads : Slots maxThreads Nat
  pid : UInt8

/-- The globals of `scheduler.c`. A `struct process *` and a `struct thread *`
are their places in the order of creation, so that a struct never returns at
the address of a freed one; `none` in `procs` is a struct that has been freed or
that nothing points to any more. The last two fields are history: how many
threads have been created, and the threads of the processes that
`scheduler_kill_self` removed. -/
structure State where
  lastProcess : UInt8
  processes : Slots maxProcesses Nat
  procs : List (Option Process)
  lastpid : UInt8
  current : Option Nat
  oldThread : Option Nat
  newThread : Option Nat
  threads : Nat
  killed : List Nat

/-- `++` on a `uint8_t`, and back to zero at the end of the table. -/
def bump (max : Nat) (last : UInt8) : UInt8 :=
  if (last + 1).toNat ≥ max then 0 else last + 1

/-- The selection loop of `scheduler_switch`, which is written twice there. A
round of the table that finds nothing is followed by the same round for ever. -/
def selectLoop (slots : Slots n Nat) : Nat → UInt8 → Option (UInt8 × Nat)
  | 0, _ => none
  | fuel + 1, last => match slots.get (bump n last).toNat with
    | some a => some (bump n last, a)
    | none => selectLoop slots fuel (bump n last)

namespace State

def proc (s : State) (h : Nat) : Option Process := s.procs[h]?.join

def setProc (s : State) (h : Nat) (p : Option Process) : State :=
  { s with procs := s.procs.set h p }

def nextProcess (s : State) : Option (UInt8 × Nat) :=
  selectLoop s.processes maxProcesses s.lastProcess

end State

def Process.nextThread (p : Process) : Option (UInt8 × Nat) :=
  selectLoop p.threads maxThreads p.lastthread

/-- What one pass through `scheduler_switch` selects. -/
structure Selection where
  process : Nat
  thread : Nat
deriving DecidableEq

namespace State

/-- `scheduler_switch` with `SWITCH_THREAD`: the selection, and the state in
which `switch_to_thread` is entered. -/
def schedulerSwitch (s : State) : Option (Selection × State) :=
  match s.nextProcess with
  | none => none
  | some (i, h) => match s.proc h with
    | none => none
    | some p => match p.nextThread with
      | none => none
      | some (j, t) => some (⟨h, t⟩,
        { s.setProc h (some { p with lastthread := j }) with
          lastProcess := i
          current := some h
          oldThread := s.newThread
          newThread := some t })

def switches : Nat → State → Option (List Selection × State)
  | 0, s => some ([], s)
  | k + 1, s => match s.schedulerSwitch with
    | none => none
    | some (sel, s') => (switches k s').map (fun x => (sel :: x.1, x.2))

def createNewProcessNothread (s : State) : State :=
  { s with
    procs := s.procs ++ [some ⟨0, 0, .empty maxThreads Nat, s.lastpid⟩]
    lastpid := s.lastpid + 1 }

/-- `create_new_thread` on a live process. -/
def createNewThread (s : State) (h : Nat) : Option State :=
  match s.proc h with
  | none => none
  | some p =>
    if p.threadslen + 1 > maxThreads then some s
    else some { s.setProc h (some { p with
        threads := p.threads.set p.threadslen (some s.threads)
        threadslen := p.threadslen + 1 }) with
      threads := s.threads + 1 }

/-- `create_new_process`, given whether its thread could be made. If not, the struct is
freed, and the pid is used up. -/
def createNewProcess (s : State) (made : Bool) : Option State :=
  if made then s.createNewProcessNothread.createNewThread s.procs.length
  else some { s with lastpid := s.lastpid + 1 }

/-- `scheduler_add_process`, called once for a process. -/
def schedulerAddProcess (s : State) (h : Nat) : Option State :=
  match s.proc h with
  | none => none
  | some p =>
    if h ∈ s.processes.members then none
    else if p.threadslen = 0 then some s
    else match s.processes.entries.findIdx? (· == none) with
      | none => some s
      | some i => some { s with processes := s.processes.set i (some h) }

/-- `scheduler_kill_self`. The process is taken off the table and its memory is
freed; of the two thread pointers only `__old__thread` is cleared. -/
def schedulerKillSelf (s : State) : Option State :=
  match s.current with
  | none => none
  | some h => match s.proc h with
    | none => none
    | some p => some { s.setProc h none with
        oldThread := none
        processes := s.processes.vacate h
        killed := p.threads.members ++ s.killed }

def pidOf (s : State) (h : Nat) : Option UInt8 := (s.proc h).map Process.pid

/-- `scheduler_kill_pid`: other processes of that pid are only taken off the
table, and their structs are left with nothing that points to them. -/
def schedulerKillPid (s : State) (pid : UInt8) : Option State :=
  match s.current with
  | none => none
  | some c => match s.proc c with
    | none => none
    | some p =>
      if pid = p.pid then s.schedulerKillSelf
      else some { s with
        processes := s.processes.retain (fun h => s.pidOf h != some pid)
        procs := s.procs.mapIdx (fun h q =>
          if h ∈ s.processes.members ∧ s.pidOf h = some pid then none else q) }

end State

inductive Op
  | createNewProcess (made : Bool)
  | createNewProcessNothread
  | createNewThread (h : Nat)
  | schedulerAddProcess (h : Nat)
  | schedulerKillSelf
  | schedulerKillPid (pid : UInt8)
  | schedulerSwitch
deriving DecidableEq

namespace State

def step (s : State) : Op → Option State
  | .createNewProcess made => s.createNewProcess made
  | .createNewProcessNothread => some s.createNewProcessNothread
  | .createNewThread h => s.createNewThread h
  | .schedulerAddProcess h => s.schedulerAddProcess h
  | .schedulerKillSelf => s.schedulerKillSelf
  | .schedulerKillPid pid => s.schedulerKillPid pid
  | .schedulerSwitch => s.schedulerSwitch.map Prod.snd

/-- The globals when `scheduler_init` has cleared the table. -/
def boot : State := ⟨0, .empty maxProcesses Nat, [], 0, none, none, none, 0, []⟩

end State

end Levos.Scheduler
