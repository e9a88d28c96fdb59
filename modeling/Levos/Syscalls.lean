import Levos.Kernel
import Levos.Library.Runs

namespace Levos.Syscalls

/-- The fields of `struct process` that the two calls read and write. `palloc`
stands for the frames, `paged` for those its directory maps into the window. -/
structure Process where
  pid : Nat
  execLen : Nat
  pallocLen : Nat
  palloc : Nat
  paged : Nat
  thread : Option Nat
  threadslen : Nat
deriving DecidableEq

/-- A `struct thread`: the process whose directory it runs under, and its
`stackbot`, which `sys_fork` leaves null. The last field is history: the
`stackbot` its stack was copied from and the process whose stack pointer it
continues at. -/
structure Thread where
  paged : Nat
  stackbot : Nat
  copied : Option (Nat × Nat)
deriving DecidableEq

/-- Where a process is. Each place of a call is inside a `malloc` or `free`, with
the mutex released. `own` is history: the child that the call has created. -/
inductive Pc
  | user
  | directory (own palloc : Nat)
  | table (own palloc : Nat)
  | freeing (own : Nat)
  | thread (own : Nat)
  | stack (own : Nat)
  | loading (size mallocs : Nat)
deriving DecidableEq

/-- What a `sys_fork` has returned, with the structs, the memory and the thread
as they were then. -/
structure Returned where
  caller : Nat
  pid : Nat
  parent : Process
  own : Process
  stackbot : Option Nat
  memory : Option (Nat × Nat)
  thread : Option Thread
deriving DecidableEq

/-- The size an `elf_start` was given, next to that of the caller's file. -/
structure Started where
  caller : Nat
  size : Nat
  given : Nat
deriving DecidableEq

/-- The processes and the variables of `fork.c` and `syscall.c` that live across
a `malloc`. `image` is history, as are the last two fields: whose bytes were
copied into the frames, and how many. -/
structure State where
  procs : List Process
  threads : List Thread
  table : List Nat
  lastpid : Nat
  parent : Option Nat
  child : Option Nat
  t : Option Nat
  esize : Nat
  pc : Nat → Pc
  image : Nat → Option (Nat × Nat)
  returns : List Returned
  starts : List Started

namespace State

def goto (s : State) (i : Nat) (pc : Pc) : State := { s with pc := Function.update s.pc i pc }

/-- `p->threads[0]->stackbot`. -/
def stackbot (s : State) (p : Process) : Option Nat :=
  (p.thread.bind (s.threads[·]?)).map Thread.stackbot

/-- `sys_fork` up to the first `malloc` of `create_new_page_directory`. -/
def sysFork (s : State) (i palloc : Nat) : Option State :=
  match s.procs[i]? with
  | none => none
  | some p => some
      { s.goto i (.directory s.procs.length palloc) with
        parent := some i
        child := some s.procs.length
        procs := s.procs ++ [⟨s.lastpid, p.execLen, p.execLen, palloc, p.paged, none, 0⟩]
        lastpid := (s.lastpid + 1) % 2 ^ 8 }

/-- The new directory is entered and the image is copied, with interrupts off:
out of the window of the running process, into that of the child. -/
def copyImage (s : State) (i own palloc : Nat) : Option State :=
  match s.parent.bind (s.procs[·]?), s.child with
  | some p, some c => match s.procs[c]? with
    | none => none
    | some q => some
        { s.goto i (.freeing own) with
          procs := s.procs.set c { q with paged := palloc }
          image := Function.update s.image palloc (some (i, min p.pallocLen q.pallocLen)) }
  | _, _ => none

def makeThread (s : State) (i own : Nat) : Option State :=
  match s.child with
  | none => none
  | some c => some
      { s.goto i (.stack own) with
        threads := s.threads ++ [⟨c, 0, none⟩]
        t := some s.threads.length }

def schedulerAddProcess (s : State) (c : Nat) : State :=
  if s.table.length < maxProcesses then { s with table := s.table ++ [c] } else s

/-- What the call of `i` that has created `own` returns, and what it leaves. -/
def record (s : State) (i own pid : Nat) : State :=
  match s.procs[i]?, s.procs[own]? with
  | some p, some q =>
    { s with returns :=
        ⟨i, pid, p, q, s.stackbot p, s.image q.paged, q.thread.bind (s.threads[·]?)⟩ ::
          s.returns }
  | _, _ => s

/-- The stack is copied and the child is put on the table. The frame of the child
is stored at the running stack pointer less `stackbot`. If that is null it is not
in memory; if it belongs to another process it is elsewhere in the heap, and
what is overwritten there is left out. -/
def finishFork (s : State) (i own : Nat) : Option State :=
  match s.parent.bind (s.procs[·]?), s.child, s.t with
  | some p, some c, some t => match s.stackbot p, s.procs[c]?, s.threads[t]? with
    | some b, some q, some th =>
      if b = 0 then none
      else
        let s' := { s.goto i .user with
          threads := s.threads.set t { th with copied := some (b, i) }
          procs := s.procs.set c
            { q with thread := some t, threadslen := (q.threadslen + 1) % 2 ^ 8 } }
        some ((s'.schedulerAddProcess c).record i own q.pid)
    | _, _, _ => none
  | _, _, _ => none

/-- The call of `elf_start` at the end of `sys_execve`, whose file has `size`
bytes. -/
def elfStart (s : State) (i size palloc : Nat) : Option State :=
  match s.procs[i]? with
  | none => none
  | some p => some
      { s.goto i .user with
        procs := s.procs.set i
          { p with execLen := s.esize, pallocLen := s.esize, palloc := palloc, paged := palloc }
        image := Function.update s.image palloc none
        starts := ⟨i, size, s.esize⟩ :: s.starts }

/-- `sys_execve` from where it sets `ptr` and `esize`, with so many calls of
`malloc` and `free` left before `elf_start`. -/
def sysExecve (s : State) (i size mallocs palloc : Nat) : Option State :=
  if size = 0 then some s
  else if mallocs = 0 then { s with esize := size }.elfStart i size palloc
  else some ({ s with esize := size }.goto i (.loading size mallocs))

/-- A process goes on behind the `malloc` or `free` it was in. -/
def resume (s : State) (i palloc : Nat) : Option State :=
  match s.pc i with
  | .user => none
  | .directory own frames => some (s.goto i (.table own frames))
  | .table own frames => s.copyImage i own frames
  | .freeing own => some (s.goto i (.thread own))
  | .thread own => s.makeThread i own
  | .stack own => s.finishFork i own
  | .loading size mallocs =>
    if mallocs ≤ 1 then s.elfStart i size palloc else some (s.goto i (.loading size (mallocs - 1)))

end State

/-- What a process on the table does when it is switched to; `palloc` is what
`phymem_alloc` returns if it is called. -/
inductive Op
  | fork (i palloc : Nat)
  | execve (i size mallocs palloc : Nat)
  | resume (i palloc : Nat)

def Op.process : Op → Nat
  | .fork i _ => i
  | .execve i _ _ _ => i
  | .resume i _ => i

def State.act (s : State) : Op → Option State
  | .fork i palloc => if s.pc i = .user then s.sysFork i palloc else none
  | .execve i size mallocs palloc =>
    if s.pc i = .user then s.sysExecve i size mallocs palloc else none
  | .resume i palloc => s.resume i palloc

def State.step (s : State) (op : Op) : Option State :=
  if op.process ∈ s.table then s.act op else none

end Levos.Syscalls
